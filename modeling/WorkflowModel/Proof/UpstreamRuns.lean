import WorkflowModel.Proof.UpstreamInvariant

/-!
# Runs of an upstream

`add` attaches a new server and `del` detaches servers. Both are, like the changes of state, replacements
of one server and its group, here together with the list of all masters and the map of servers. The
invariant holds in every state of a run in which no failure counter of an attached server wraps around.
-/

namespace WorkflowModel.Manager.Upstream

open WorkflowModel Finset

structure Inv (s : Upstream) : Prop extends Core s where
  mem_allMasters : ∀ i, i ∈ s.masters
    ↔ (s.addresses i).group ≠ none ∧ (s.addresses i).params.serverType = .master
  nodup_allMasters : s.masters.Nodup
  mem_serverMap : ∀ address i, i ∈ s.serverMap address
    ↔ (s.addresses i).group ≠ none ∧ (s.addresses i).address = address

theorem Inv.housed {s : Upstream} (h : Inv s) : Housed s :=
  ⟨h.placed, h.mem_allMasters, h.nodup_allMasters, h.mem_serverMap⟩

theorem Inv.of_housed {s : Upstream} (h : Housed s) (hcore : Core s) : Inv s :=
  ⟨hcore, h.mem_allMasters, h.nodup_allMasters, h.mem_serverMap⟩

theorem Changes.inv {s t : Upstream} (h : Changes s t) (hs : Inv s) : Inv t := by
  obtain ⟨-, hmasters, hmap, -, -⟩ := h.frame
  refine ⟨h.core hs.toCore, ?_, ?_, ?_⟩
  · intro i
    obtain ⟨hparams, -, hgroup⟩ := h.address_eq i
    rw [hmasters, hparams, hgroup]
    exact hs.mem_allMasters i
  · rw [hmasters]
    exact hs.nodup_allMasters
  · intro address i
    obtain ⟨-, haddress, hgroup⟩ := h.address_eq i
    rw [hmap, haddress, hgroup]
    exact hs.mem_serverMap address i

theorem Inv.lt_count_of_mem_serverMap {s : Upstream} (h : Inv s) {address : Bytes} {i : Nat}
    (hi : i ∈ s.serverMap address) : i < s.count :=
  h.lt_count ((h.mem_serverMap address i).1 hi).1

theorem Inv.sum_masters {s : Upstream} (h : Inv s) {f : UpstreamAddress → Int}
    (hf : ∀ ua : UpstreamAddress, ¬ (ua.group ≠ none ∧ ua.params.serverType = .master) → f ua = 0) :
    ∑ i ∈ s.masters.toFinset, f (s.addresses i) = sumOver s f := by
  apply Finset.sum_subset
  · intro i hi
    rw [List.mem_toFinset, h.mem_allMasters] at hi
    exact mem_range.2 (h.lt_count hi.1)
  · intro i _ hi
    rw [List.mem_toFinset, h.mem_allMasters] at hi
    exact hf _ hi

theorem changes_foldl_serverMap {s : Upstream} (h : Inv s) (address : Bytes)
    {f : Upstream → Nat → Upstream} (hf : ∀ i u, Core u → i < u.count → Changes u (f u i)) :
    Changes s ((s.serverMap address).foldl f s) := by
  apply Changes.foldl (Q := fun i u => i < u.count) _ hf _ h.toCore
  · exact fun i hi => h.lt_count_of_mem_serverMap hi
  · intro i u v hchanges hi
    rw [hchanges.frame.1]
    exact hi

theorem Core.enrolled {s : Upstream} {ua : UpstreamAddress} (h : Core s)
    (hnormal : 1 ≤ ua.params.maxFails ∧ 1 ≤ ua.params.weight ∧ -1 ≤ ua.params.groupId)
    (hgroup : ua.group = none) (hlist : ua.inList = false) : Core (enrolled s ua) := by
  refine of_placed (h.placed.enrolled hnormal hgroup hlist) ?_ ?_
  · intro i hi
    rw [enrolled_addresses] at hi ⊢
    by_cases heq : i = s.count
    · rw [heq, Function.update_self] at hi
      exact absurd hgroup hi
    · rw [Function.update_of_ne heq] at hi ⊢
      exact h.broken i hi
  · intro id
    rw [h.placed.enrolled_group, h.nalive, sumOver_enrolled (by simp [liveIn, hgroup])]

theorem Core.join {s : Upstream} (h : Core s) {i : Nat} {ua : UpstreamAddress} {available : Int}
    (hi : i < s.count) (hua : s.addresses i = ua) (hnone : ua.group = none)
    (halive : ua.alive = true) (hlist : ua.inList = false) :
    Core (s.restate i { ua with group := some ua.params.groupId } ua.params.groupId
      (joinedGroup (s.group ua.params.groupId) i ua) available (s.totalWeight + ownWeight ua)) := by
  have halive' : ({ ua with group := some ua.params.groupId } : UpstreamAddress).alive = true := halive
  refine of_placed (h.placed.join hi hua hnone hlist) ?_ ?_
  · apply forall_restate_addresses (fun _ a => a.group ≠ none → (a.inList = true ↔ a.alive = false)) _
      h.broken
    intro _
    rw [halive']
    simp [hlist]
  · apply sum_restate h.nalive hi
    · exact fun k _ => if_neg (by simp [hua, hnone])
    · exact fun k hk => if_neg fun hP => hk (Option.some.inj hP.1).symm
    · simp [joinedGroup, liveIn, halive', hua, hnone]

theorem Core.add {s : Upstream} (h : Core s) (address : Bytes) (params : AddressParams)
    (hashes : List Nat) : Core (s.add address params hashes) := by
  rw [add_eq]
  apply (h.enrolled (newAddress_normal address params hashes) rfl rfl).join
  · simp
  · rw [enrolled_addresses, Function.update_self]
  · rfl
  · exact newAddress_alive address params hashes
  · rfl

theorem Inv.add {s : Upstream} (h : Inv s) (address : Bytes) (params : AddressParams)
    (hashes : List Nat) : Inv (s.add address params hashes) :=
  .of_housed (h.housed.add address params hashes) (h.toCore.add address params hashes)

theorem Core.leaveGroup {s : Upstream} (h : Core s) (i : Nat) : Core (leaveGroup i s) := by
  cases hgroup : (s.addresses i).group with
  | none =>
      rw [leaveGroup_of_detached hgroup]
      exact h
  | some id =>
      have hplaced := h.placed.leaveGroup i
      rw [leaveGroup_eq hgroup] at hplaced ⊢
      refine of_placed hplaced ?_ ?_
      · exact forall_restate_addresses
          (fun _ a => a.group ≠ none → (a.inList = true ↔ a.alive = false)) (by simp) h.broken
      · apply sum_restate h.nalive (h.lt_count (by simp [hgroup]))
        · exact fun k hk => if_neg fun hP => hk (Option.some.inj (hP.1.symm.trans hgroup))
        · exact fun k _ => if_neg (by simp)
        · simp only [leftGroup, liveIn, hgroup]
          split_ifs <;> simp_all [sub_eq_add_neg]

theorem Core.leaveAll {s : Upstream} (h : Core s) (l : List Nat) : Core (leaveAll l s) := by
  induction l generalizing s with
  | nil => exact h
  | cons i rest ih => exact ih (h.leaveGroup i)

theorem Inv.del {s : Upstream} (h : Inv s) (address : Bytes) : Inv (s.del address).2 := by
  have hleft := h.toCore.leaveAll (s.serverMap address)
  have hhoused := h.housed.del address
  exact .of_housed hhoused (.of_placed hhoused.toPlaced hleft.broken hleft.nalive)

theorem inv_emptyUpstream : Inv emptyUpstream := by
  refine ⟨⟨?_, ?_, ?_, ?_, ?_, ?_, ?_, ?_, ?_, ?_, ?_, ?_, ?_, ?_, ?_, ?_⟩, ?_, ?_, ?_⟩ <;>
    simp [emptyUpstream, emptyGroup, newAddress, sumOver]

/-- The failure counter that `op` increments does not wrap around if its server is attached. -/
def NoWrap (s : Upstream) : Op → Prop
  | .notifyUnavailable i _ =>
      (s.addresses i).group ≠ none → (s.addresses i).failCount + 1 < 2 ^ 32
  | _ => True

def NoWraps : Upstream → List Op → Prop
  | _, [] => True
  | s, op :: rest => NoWrap s op ∧ NoWraps (step s op) rest

/-- What one operation can do: add, remove, or change the state of servers that stay attached. -/
theorem step_cases {s : Upstream} (h : Inv s) {op : Op} (hwrap : NoWrap s op) :
    (∃ address params hashes, op = .add address params hashes) ∨ (∃ address, op = .del address)
      ∨ Changes s (step s op) := by
  cases op with
  | add address params hashes => exact .inl ⟨address, params, hashes, rfl⟩
  | del address => exact .inr (.inl ⟨address, rfl⟩)
  | disableServer address now =>
      exact .inr (.inr (changes_foldl_serverMap h address
        fun i u hu hi => changes_disableOne hu now hi))
  | enableServer address =>
      exact .inr (.inr (changes_foldl_serverMap h address
        fun i u hu hi => changes_notifyAvailable hu hi))
  | notifyAvailable i =>
      right; right
      simp only [step]
      split_ifs with hi
      · exact changes_notifyAvailable h.toCore hi
      · exact .refl
  | notifyUnavailable i now =>
      right; right
      simp only [step]
      split_ifs with hi
      · exact changes_notifyUnavailable h.toCore now hi hwrap
      · exact .refl
  | checkOneBreaker id now =>
      right; right
      simp only [step]
      split_ifs
      · exact changes_checkOneBreaker h.toCore id now
      · exact .refl
  | checkAllBreaker now => exact .inr (.inr (changes_checkAllBreaker h.toCore now))

theorem Inv.step {s : Upstream} (h : Inv s) {op : Op} (hwrap : NoWrap s op) : Inv (step s op) := by
  obtain ⟨address, params, hashes, rfl⟩ | ⟨address, rfl⟩ | hchanges := step_cases h hwrap
  · exact h.add address params hashes
  · exact h.del address
  · exact hchanges.inv h

theorem Inv.run {s : Upstream} (h : Inv s) {ops : List Op} (hwraps : NoWraps s ops) :
    Inv (run s ops) := by
  induction ops generalizing s with
  | nil => exact h
  | cons op rest ih => exact ih (h.step hwraps.1) hwraps.2

end WorkflowModel.Manager.Upstream
