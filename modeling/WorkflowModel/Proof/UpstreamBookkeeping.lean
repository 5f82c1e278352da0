import WorkflowModel.Proof.UpstreamRuns

/-!
# The books of an upstream

What the circuit breaker writes down in several places agrees in every state of a run: the counter of the live
members of a group, the breaker lists, the list of all masters and their total weight.
-/

namespace WorkflowModel.Manager.Upstream

open WorkflowModel Finset

/-- The servers that a group has in its two lists, and that have the group. -/
def members (s : Upstream) (id : Int) : List Nat :=
  ((s.group id).masters ++ (s.group id).slaves).filter fun i => (s.addresses i).group = some id

structure Bookkeeping (s : Upstream) : Prop where
  nalive : ∀ id ∈ s.groupIds, (s.group id).nalive
    = ((s.members id).countP fun i => (s.addresses i).failCount < (s.addresses i).params.maxFails : Nat)
  breakerList : ∀ id ∈ s.groupIds, ∀ i ∈ s.members id,
    i ∈ (s.group id).breakerList ↔ (s.addresses i).params.maxFails ≤ (s.addresses i).failCount
  nodup_masters : s.masters.Nodup
  masters : ∀ i, i ∈ s.masters ↔
    (s.addresses i).params.serverType = .master ∧ ∃ address, i ∈ s.serverMap address
  grouped : ∀ i ∈ s.masters, (s.addresses i).group ≠ none
  totalWeight : s.totalWeight = (s.masters.map fun i => ((s.addresses i).params.weight : Int)).sum

variable {s : Upstream}

theorem Core.mem_members (h : Core s) (id : Int) (i : Nat) :
    i ∈ s.members id ↔ (s.addresses i).group = some id := by
  rw [members, List.mem_filter, List.mem_append, h.mem_masters, h.mem_slaves]
  simp only [decide_eq_true_eq]
  cases (s.addresses i).params.serverType <;> simp

theorem Core.nodup_members (h : Core s) (id : Int) : (s.members id).Nodup := by
  apply List.Nodup.filter
  apply (h.nodup_masters id).append (h.nodup_slaves id)
  intro i hmaster hslave
  have hm := ((h.mem_masters id i).1 hmaster).2
  have hs := ((h.mem_slaves id i).1 hslave).2
  rw [hm] at hs
  cases hs

/-- The counter of a group counts its members. -/
theorem Core.nalive_eq_countP (h : Core s) (id : Int) : (s.group id).nalive
    = ((s.members id).countP fun i => (s.addresses i).alive : Nat) := by
  have hsub : (s.members id).toFinset ⊆ range s.count := by
    intro i hi
    rw [List.mem_toFinset, h.mem_members] at hi
    have hne : (s.addresses i).group ≠ none := by
      rw [hi]
      simp
    exact mem_range.2 (h.lt_count hne)
  calc
    (s.group id).nalive = sumOver s (liveIn id) := h.nalive id
    _ = ∑ i ∈ (s.members id).toFinset, liveIn id (s.addresses i) := by
      symm
      apply Finset.sum_subset hsub
      intro i _ hi
      rw [List.mem_toFinset, h.mem_members] at hi
      simp [liveIn, hi]
    _ = ((s.members id).map fun i => liveIn id (s.addresses i)).sum :=
      List.sum_toFinset _ (h.nodup_members id)
    _ = ((s.members id).map fun i => if (s.addresses i).alive = true then (1 : Int) else 0).sum := by
      congr 1
      apply List.map_congr_left
      intro i hi
      rw [h.mem_members] at hi
      simp [liveIn, hi]
    _ = ((s.members id).countP fun i => (s.addresses i).alive : Nat) := by
      rw [List.countP_eq_length_filter]
      induction s.members id with
      | nil => rfl
      | cons i rest ih =>
          rw [List.map_cons, List.sum_cons, ih, List.filter_cons]
          split <;> simp [add_comm]

theorem Inv.bookkeeping (h : Inv s) : Bookkeeping s := by
  refine ⟨?_, ?_, h.nodup_allMasters, ?_, ?_, ?_⟩
  · intro id _
    exact h.nalive_eq_countP id
  · intro id _ i hi
    rw [h.mem_members] at hi
    have hbroken := h.broken i (by rw [hi]; simp)
    rw [h.mem_breakerList, hbroken, h.attached i id hi]
    simp [UpstreamAddress.alive]
  · intro i
    rw [h.mem_allMasters]
    constructor
    · rintro ⟨hgroup, hmaster⟩
      exact ⟨hmaster, _, (h.mem_serverMap _ i).2 ⟨hgroup, rfl⟩⟩
    · rintro ⟨hmaster, address, hmem⟩
      exact ⟨((h.mem_serverMap address i).1 hmem).1, hmaster⟩
  · intro i hi
    exact ((h.mem_allMasters i).1 hi).1
  · have hsum : ∑ i ∈ s.masters.toFinset, masterWeight (s.addresses i) = sumOver s masterWeight := by
      apply h.sum_masters
      intro ua hua
      simp only [masterWeight, if_neg hua]
    rw [h.total, ← hsum, List.sum_toFinset _ h.nodup_allMasters]
    congr 1
    apply List.map_congr_left
    intro i hi
    simp only [masterWeight, if_pos ((h.mem_allMasters i).1 hi)]

theorem bookkeeping_run {ops : List Op} (hwraps : NoWraps emptyUpstream ops) :
    Bookkeeping (run emptyUpstream ops) :=
  (inv_emptyUpstream.run hwraps).bookkeeping

/-- A broken master is removed, and mended when it is no longer a member. -/
def mendedRun : List Op :=
  [.add [1] ⟨1, 2, .master, 4⟩ [], .add [1] ⟨2, 3, .slave, 4⟩ [], .add [2] ⟨1, 5, .master, 4⟩ [],
    .notifyUnavailable 0 0, .disableServer [2] 1, .del [1], .notifyAvailable 0, .checkAllBreaker 30]

theorem bookkeeping_mendedRun :
    NoWraps emptyUpstream mendedRun ∧ Bookkeeping (run emptyUpstream mendedRun) := by
  have hwraps : NoWraps emptyUpstream mendedRun := by
    simp only [mendedRun, NoWraps, NoWrap]
    decide
  exact ⟨hwraps, bookkeeping_run hwraps⟩

end WorkflowModel.Manager.Upstream
