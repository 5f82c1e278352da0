import WorkflowModel.Proof.UpstreamPlacement

/-!
# Changes of state, whatever the failure counters say

Every operation beside `add` and `del` replaces servers that stay where they are attached, and the breaker
list of the group follows the mark of the server. `drift` is how far the counter of a group is ahead of
its breaker list. A change is indexed by the relation it puts on the drift, so that one account serves the
facts that hold of all operations and the facts that hold of those that keep the counter exact.
-/

namespace WorkflowModel.Manager.Upstream

open WorkflowModel Finset

theorem length_filter_ne {l : List Nat} (hl : l.Nodup) {i : Nat} (hi : i ∈ l) :
    (l.filter (· ≠ i)).length + 1 = l.length := by
  have herase : l.erase i = l.filter (· ≠ i) := by
    rw [hl.erase_eq_filter]
    apply List.filter_congr
    intro j _
    simp [bne, Bool.beq_eq_decide_eq]
  rw [← herase, List.length_erase_of_mem hi]
  exact Nat.sub_add_cancel (List.length_pos_of_mem hi)

def drift (group : UpstreamGroup) : Int := group.nbreak - group.breakerList.length

/-- The invariant of all runs: nothing is listed twice. -/
structure Linked (s : Upstream) : Prop extends Housed s where
  nodup_breakerList : ∀ id, (s.group id).breakerList.Nodup
  nodup_serverMap : ∀ address, (s.serverMap address).Nodup

/-- A server stays where it is attached, and its mark and its breaker list agree. -/
structure Touch (r : Int → Int → Prop) (s : Upstream) (i : Nat) (ua : UpstreamAddress) (id : Int)
    (group : UpstreamGroup) : Prop where
  lt : i < s.count
  params : ua.params = (s.addresses i).params
  address : ua.address = (s.addresses i).address
  home : (s.addresses i).params.groupId = id
  same : ua.group = (s.addresses i).group
  masters : group.masters = (s.group id).masters
  slaves : group.slaves = (s.group id).slaves
  weight : group.weight = (s.group id).weight
  list : ∀ j, j ∈ group.breakerList ↔
    if j = i then ua.inList = true else j ∈ (s.group id).breakerList
  nodup : group.breakerList.Nodup
  counter : r (drift (s.group id)) (drift group)

inductive Touches (r : Int → Int → Prop) (s : Upstream) : Upstream → Prop where
  | refl : Touches r s s
  | touch {t : Upstream} {i : Nat} {ua : UpstreamAddress} {id : Int} {group : UpstreamGroup}
      (before : Touches r s t) (touch : Touch r t i ua id group) (available : Int) :
      Touches r s (t.restate i ua id group available t.totalWeight)

namespace Touches

variable {r : Int → Int → Prop} {s t : Upstream}

theorem one {i : Nat} {ua : UpstreamAddress} {id : Int} {group : UpstreamGroup}
    (htouch : Touch r s i ua id group) (available : Int) :
    Touches r s (s.restate i ua id group available s.totalWeight) :=
  .touch .refl htouch available

theorem trans {u : Upstream} (h : Touches r s t) (h' : Touches r t u) : Touches r s u := by
  induction h' with
  | refl => exact h
  | touch _ htouch available ih => exact .touch ih htouch available

theorem mono {r' : Int → Int → Prop} (hr : ∀ a b, r a b → r' a b) (h : Touches r s t) :
    Touches r' s t := by
  induction h with
  | refl => exact .refl
  | touch _ htouch available ih =>
      exact .touch ih { htouch with counter := hr _ _ htouch.counter } available

theorem frame (h : Touches r s t) :
    t.count = s.count ∧ t.masters = s.masters ∧ t.serverMap = s.serverMap
      ∧ t.groupIds = s.groupIds := by
  induction h with
  | refl => exact ⟨rfl, rfl, rfl, rfl⟩
  | touch _ _ _ ih => exact ih

theorem address_eq (h : Touches r s t) (i : Nat) :
    (t.addresses i).params = (s.addresses i).params
      ∧ (t.addresses i).address = (s.addresses i).address
      ∧ (t.addresses i).group = (s.addresses i).group := by
  induction h with
  | refl => exact ⟨rfl, rfl, rfl⟩
  | @touch u j ua id group _ htouch _ ih =>
      by_cases hi : i = j
      · rw [hi, restate_addresses_self, htouch.params, htouch.address, htouch.same, ← hi]
        exact ih
      · rw [restate_addresses_of_ne hi]
        exact ih

theorem placed (h : Touches r s t) (hs : Placed s) : Placed t := by
  induction h with
  | refl => exact hs
  | touch _ htouch _ ih =>
      exact ih.restate_state htouch.lt htouch.params htouch.home htouch.same htouch.masters
        htouch.slaves htouch.list htouch.weight

theorem linked (h : Touches r s t) (hs : Linked s) : Linked t := by
  obtain ⟨-, hmasters, hmap, -⟩ := h.frame
  refine ⟨⟨h.placed hs.toPlaced, ?_, ?_, ?_⟩, ?_, ?_⟩
  · intro i
    obtain ⟨hparams, -, hgroup⟩ := h.address_eq i
    rw [hmasters, hparams, hgroup]
    exact hs.mem_allMasters i
  · rw [hmasters]
    exact hs.nodup_allMasters
  · intro address i
    obtain ⟨-, haddress, hgroup⟩ := h.address_eq i
    rw [hmap, haddress, hgroup]
    exact hs.mem_serverMap address i
  · induction h with
    | refl => exact hs.nodup_breakerList
    | touch before htouch _ ih =>
        obtain ⟨-, hmasters, hmap, -⟩ := before.frame
        exact forall_restate_group (fun g => g.breakerList.Nodup) htouch.nodup (ih hmasters hmap)
  · rw [hmap]
    exact hs.nodup_serverMap

theorem counter [Std.Refl r] [IsTrans Int r] (h : Touches r s t) (id : Int) :
    r (drift (s.group id)) (drift (t.group id)) := by
  induction h with
  | refl => exact Std.Refl.refl _
  | @touch u j ua k group _ htouch _ ih =>
      by_cases hid : id = k
      · rw [hid, restate_group_self]
        exact IsTrans.trans _ _ _ (hid ▸ ih) htouch.counter
      · rw [restate_group_of_ne hid]
        exact ih

theorem foldl {f : Upstream → Nat → Upstream}
    (hf : ∀ i u, Linked u → i < u.count → Touches r u (f u i)) (l : List Nat) (hs : Linked s)
    (hl : ∀ i ∈ l, i < s.count) : Touches r s (l.foldl f s) := by
  induction l generalizing s with
  | nil => exact .refl
  | cons i rest ih =>
      have hfirst : Touches r s (f s i) := hf i s hs (hl i (List.mem_cons_self ..))
      refine hfirst.trans (ih (hfirst.linked hs) ?_)
      intro j hj
      rw [hfirst.frame.1]
      exact hl j (List.mem_cons_of_mem i hj)

end Touches

section OneServer

variable {s : Upstream} {i : Nat} {ua : UpstreamAddress} {id : Int}

theorem Placed.mem_own (h : Placed s) (hgroup : (s.addresses i).group = some id) :
    i < s.count ∧ (s.addresses i).params.groupId = id :=
  ⟨h.lt_count (by simp [hgroup]), h.attached i id hgroup⟩

theorem touches_setAddress (h : Linked s) (hi : i < s.count)
    (hparams : ua.params = (s.addresses i).params) (haddress : ua.address = (s.addresses i).address)
    (hsame : ua.group = (s.addresses i).group) (hlist : ua.inList = (s.addresses i).inList) :
    Touches (· = ·) s (s.setAddress i ua) := by
  rw [setAddress_eq_restate i ua (s.addresses i).params.groupId s]
  refine .one ⟨hi, hparams, haddress, rfl, hsame, rfl, rfl, rfl, ?_, h.nodup_breakerList _, rfl⟩ _
  intro j
  split_ifs with hj
  · rw [hj, h.mem_breakerList, hlist]
    simp
  · rfl

theorem Touch.listed (h : Linked s) (hgroup : (s.addresses i).group = some id)
    (hin : (s.addresses i).inList = false) (hparams : ua.params = (s.addresses i).params)
    (haddress : ua.address = (s.addresses i).address) (hsame : ua.group = (s.addresses i).group)
    (hlist : ua.inList = true) (nalive : Int) :
    Touch (· = ·) s i ua id { s.group id with
      breakerList := (s.group id).breakerList ++ [i]
      nbreak := (s.group id).nbreak + 1
      nalive := nalive } := by
  obtain ⟨hlt, hid⟩ := h.mem_own hgroup
  refine ⟨hlt, hparams, haddress, hid, hsame, rfl, rfl, rfl, ?_, ?_, ?_⟩
  · intro j
    by_cases hj : j = i <;> simp [hj, hlist]
  · rw [← List.concat_eq_append]
    apply (h.nodup_breakerList id).concat
    rw [h.mem_breakerList, hin]
    simp
  · simp only [drift, List.length_append, List.length_singleton]
    omega

/-- The server leaves the list, and `change` is what becomes of the counter. -/
theorem Touch.unlisted {r : Int → Int → Prop} (h : Linked s) (hi : i ∈ (s.group id).breakerList)
    (hlt : i < s.count) (hparams : ua.params = (s.addresses i).params)
    (haddress : ua.address = (s.addresses i).address) (hsame : ua.group = (s.addresses i).group)
    (hlist : ua.inList = false) (nbreak nalive : Int)
    (hr : r (drift (s.group id)) (drift (s.group id) + (nbreak - (s.group id).nbreak) + 1)) :
    Touch r s i ua id { s.group id with
      breakerList := (s.group id).breakerList.filter (· ≠ i)
      nbreak := nbreak
      nalive := nalive } := by
  have hid := ((h.mem_breakerList id i).1 hi).2
  refine ⟨hlt, hparams, haddress, hid, hsame, rfl, rfl, rfl, ?_, (h.nodup_breakerList id).filter _, ?_⟩
  · intro j
    by_cases hj : j = i <;> simp [hj, hlist]
  · have hlength := length_filter_ne (h.nodup_breakerList id) hi
    convert hr using 1
    simp only [drift]
    omega

theorem touches_breakServer (h : Linked s) (now : Int) (hgroup : (s.addresses i).group = some id)
    (hin : (s.addresses i).inList = false) (hparams : ua.params = (s.addresses i).params)
    (haddress : ua.address = (s.addresses i).address) (hsame : ua.group = (s.addresses i).group) :
    Touches (· = ·) s (breakServer id i now (s.setAddress i ua)) := by
  rw [breakServer_setAddress]
  refine .one (Touch.listed h hgroup hin ?_ ?_ ?_ rfl _) _
  · exact hparams
  · exact haddress
  · exact hsame

theorem touches_disableOne (h : Linked s) (now : Int) (hi : i < s.count) :
    Touches (· = ·) s (disableOne now i s) := by
  simp only [disableOne]
  split
  next id hgroup =>
    split
    next => exact touches_setAddress h hi rfl rfl rfl rfl
    next hin => exact touches_breakServer h now hgroup (by simpa using hin) rfl rfl rfl
  next => exact touches_setAddress h hi rfl rfl rfl rfl

theorem touches_notifyUnavailable (h : Linked s) (now : Int) (hi : i < s.count) :
    Touches (· = ·) s (notifyUnavailable i now s) := by
  simp only [notifyUnavailable]
  split
  next id hgroup =>
    split
    next hlimit => exact touches_breakServer h now hgroup hlimit.2 rfl rfl rfl
    next => exact touches_setAddress h hi rfl rfl rfl rfl
  next => exact touches_setAddress h hi rfl rfl rfl rfl

theorem notifyAvailable_listed (hgroup : (s.addresses i).group = some id)
    (hin : (s.addresses i).inList = true) :
    ∃ nalive available, notifyAvailable i s
      = s.restate i { s.addresses i with inList := false, failCount := 0 } id
        { s.group id with
          breakerList := (s.group id).breakerList.filter (· ≠ i)
          nbreak := (s.group id).nbreak
          nalive := nalive } available s.totalWeight := by
  simp only [notifyAvailable, hgroup, hin, if_true, gainOneServer_eq, setAddress, setGroup]
  split_ifs
  · exact ⟨_, _, rfl⟩
  · simp only [Function.update_self, Function.update_idem]
    exact ⟨_, _, rfl⟩

theorem touch_notifyAvailable (h : Linked s) (hgroup : (s.addresses i).group = some id)
    (hin : (s.addresses i).inList = true) :
    ∃ ua group available, notifyAvailable i s = s.restate i ua id group available s.totalWeight
      ∧ Touch (· < ·) s i ua id group := by
  obtain ⟨nalive, available, heq⟩ := notifyAvailable_listed hgroup hin
  obtain ⟨hlt, hid⟩ := h.mem_own hgroup
  refine ⟨_, _, available, heq, ?_⟩
  refine Touch.unlisted h ((h.mem_breakerList id i).2 ⟨hin, hid⟩) hlt ?_ ?_ ?_ rfl _ _ ?_
  · rfl
  · rfl
  · rfl
  · omega

theorem touches_notifyAvailable_of_quiet (h : Linked s) (hi : i < s.count)
    (hquiet : (s.addresses i).group ≠ none → (s.addresses i).inList = false) :
    Touches (· = ·) s (notifyAvailable i s) := by
  simp only [notifyAvailable]
  split
  next id hgroup =>
    have hin : (s.addresses i).inList = false := hquiet (by simp [hgroup])
    rw [if_neg (by simp [hin])]
    exact touches_setAddress h hi rfl rfl rfl hin.symm
  next => exact touches_setAddress h hi rfl rfl rfl rfl

theorem touches_notifyAvailable (h : Linked s) (hi : i < s.count) :
    Touches (· ≤ ·) s (notifyAvailable i s) := by
  by_cases hlisted : (s.addresses i).group ≠ none ∧ (s.addresses i).inList = true
  · obtain ⟨id, hgroup⟩ := Option.ne_none_iff_exists'.1 hlisted.1
    obtain ⟨ua, group, available, heq, htouch⟩ := touch_notifyAvailable h hgroup hlisted.2
    rw [heq]
    exact (Touches.one htouch available).mono fun _ _ => le_of_lt
  · refine (touches_notifyAvailable_of_quiet h hi fun hgroup => ?_).mono fun _ _ => le_of_eq
    simpa [hgroup] using hlisted

theorem mendOne_of_due (id : Int) {now : Int} (hdue : (s.addresses i).brokenTimeout ≤ now) :
    ∃ failCount nalive available, mendOne id now i s
      = s.restate i { s.addresses i with failCount := failCount, inList := false } id
        { s.group id with
          breakerList := (s.group id).breakerList.filter (· ≠ i)
          nbreak := (s.group id).nbreak - 1
          nalive := nalive } available s.totalWeight := by
  simp only [mendOne, hdue, if_true, gainOneServer_eq, setAddress, setGroup]
  split_ifs
  · exact ⟨_, _, _, rfl⟩
  · simp only [Function.update_self, Function.update_idem]
    exact ⟨_, _, _, rfl⟩
  · exact ⟨_, _, _, rfl⟩

theorem touches_mendOne (h : Linked s) (now : Int) (hi : i ∈ (s.group id).breakerList) :
    Touches (· = ·) s (mendOne id now i s) := by
  by_cases hdue : (s.addresses i).brokenTimeout ≤ now
  · obtain ⟨failCount, nalive, available, heq⟩ := mendOne_of_due id hdue
    have hlt : i < s.count := by
      by_contra hge
      have hin := ((h.mem_breakerList id i).1 hi).1
      simp [(h.fresh i (not_lt.1 hge)).2] at hin
    rw [heq]
    refine .one (Touch.unlisted h hi hlt ?_ ?_ ?_ rfl _ _ ?_) _
    · rfl
    · rfl
    · rfl
    · ring
  · simp only [mendOne, hdue, if_false]
    exact .refl

theorem mem_mendOne_breakerList (now : Int) {j : Nat} (hj : j ≠ i)
    (hmem : j ∈ (s.group id).breakerList) : j ∈ ((mendOne id now i s).group id).breakerList := by
  by_cases hdue : (s.addresses i).brokenTimeout ≤ now
  · obtain ⟨failCount, nalive, available, heq⟩ := mendOne_of_due id hdue
    rw [heq, restate_group_self]
    simp [hmem, hj]
  · simpa only [mendOne, hdue, if_false] using hmem

end OneServer

variable {s : Upstream}

theorem touches_foldl_serverMap {r : Int → Int → Prop} (h : Linked s) (address : Bytes)
    {f : Upstream → Nat → Upstream} (hf : ∀ i u, Linked u → i < u.count → Touches r u (f u i)) :
    Touches r s ((s.serverMap address).foldl f s) := by
  apply Touches.foldl hf _ h
  intro i hi
  exact h.lt_count ((h.mem_serverMap address i).1 hi).1

theorem touches_foldl_mendOne (id now : Int) (l : List Nat) (hl : l.Nodup) (h : Linked s)
    (hmem : ∀ i ∈ l, i ∈ (s.group id).breakerList) :
    Touches (· = ·) s (l.foldl (fun s i => mendOne id now i s) s) := by
  induction l generalizing s with
  | nil => exact .refl
  | cons i rest ih =>
      obtain ⟨hi, hrest⟩ := List.nodup_cons.1 hl
      have hfirst := touches_mendOne h now (hmem i (List.mem_cons_self ..))
      refine hfirst.trans (ih hrest (hfirst.linked h) ?_)
      intro j hj
      exact mem_mendOne_breakerList now (ne_of_mem_of_not_mem hj hi)
        (hmem j (List.mem_cons_of_mem i hj))

theorem touches_checkOneBreaker (h : Linked s) (id now : Int) :
    Touches (· = ·) s (checkOneBreaker id now s) := by
  unfold checkOneBreaker
  split
  · exact .refl
  · exact touches_foldl_mendOne id now _ (h.nodup_breakerList id) h fun _ hi => hi

theorem touches_checkAllBreaker (h : Linked s) (now : Int) :
    Touches (· = ·) s (checkAllBreaker now s) := by
  unfold checkAllBreaker
  generalize s.groupIds = ids
  induction ids generalizing s with
  | nil => exact .refl
  | cons id rest ih =>
      have hfirst := touches_checkOneBreaker h id now
      exact hfirst.trans (ih (hfirst.linked h))

theorem Placed.add_breakers (h : Placed s) (address : Bytes) (params : AddressParams)
    (hashes : List Nat) (id : Int) :
    ((s.add address params hashes).group id).breakerList = (s.group id).breakerList
      ∧ ((s.add address params hashes).group id).nbreak = (s.group id).nbreak := by
  rw [add_eq]
  by_cases hid : id = (newAddress address params hashes).params.groupId
  · rw [hid, restate_group_self, h.enrolled_group]
    exact ⟨rfl, rfl⟩
  · rw [restate_group_of_ne hid, h.enrolled_group]
    exact ⟨rfl, rfl⟩

theorem leaveGroup_breakers (s : Upstream) (i : Nat) (id : Int) :
    ((leaveGroup i s).group id).breakerList = (s.group id).breakerList
      ∧ ((leaveGroup i s).group id).nbreak = (s.group id).nbreak := by
  cases hgroup : (s.addresses i).group with
  | none =>
      rw [leaveGroup_of_detached hgroup]
      exact ⟨rfl, rfl⟩
  | some k =>
      rw [leaveGroup_eq hgroup]
      by_cases hid : id = k
      · rw [hid, restate_group_self]
        exact ⟨rfl, rfl⟩
      · rw [restate_group_of_ne hid]
        exact ⟨rfl, rfl⟩

theorem leaveAll_breakers (l : List Nat) (s : Upstream) (id : Int) :
    ((leaveAll l s).group id).breakerList = (s.group id).breakerList
      ∧ ((leaveAll l s).group id).nbreak = (s.group id).nbreak := by
  induction l generalizing s with
  | nil => exact ⟨rfl, rfl⟩
  | cons i rest ih =>
      obtain ⟨hlist, hnbreak⟩ := leaveGroup_breakers s i id
      obtain ⟨hlists, hnbreaks⟩ := ih (leaveGroup i s)
      exact ⟨hlists.trans hlist, hnbreaks.trans hnbreak⟩

theorem Linked.add (h : Linked s) (address : Bytes) (params : AddressParams) (hashes : List Nat) :
    Linked (s.add address params hashes) := by
  refine ⟨h.toHoused.add address params hashes, ?_, ?_⟩
  · intro id
    rw [(h.add_breakers address params hashes id).1]
    exact h.nodup_breakerList id
  · intro address'
    rw [add_serverMap]
    by_cases haddress : address' = address
    · rw [haddress, Function.update_self, ← List.concat_eq_append]
      apply (h.nodup_serverMap address).concat
      rw [h.mem_serverMap, (h.fresh s.count le_rfl).1]
      simp
    · rw [Function.update_of_ne haddress]
      exact h.nodup_serverMap address'

theorem Linked.del (h : Linked s) (address : Bytes) : Linked (s.del address).2 := by
  refine ⟨h.toHoused.del address, ?_, ?_⟩
  · intro id
    change ((leaveAll (s.serverMap address) s).group id).breakerList.Nodup
    rw [(leaveAll_breakers (s.serverMap address) s id).1]
    exact h.nodup_breakerList id
  · intro address'
    change (Function.update s.serverMap address [] address').Nodup
    by_cases haddress : address' = address
    · rw [haddress, Function.update_self]
      exact List.nodup_nil
    · rw [Function.update_of_ne haddress]
      exact h.nodup_serverMap address'

theorem linked_emptyUpstream : Linked emptyUpstream := by
  refine ⟨⟨⟨?_, ?_, ?_, ?_, ?_, ?_, ?_, ?_, ?_, ?_, ?_, ?_, ?_, ?_⟩, ?_, ?_, ?_⟩, ?_, ?_⟩ <;>
    simp [emptyUpstream, emptyGroup, newAddress, sumOver]

/-- What any operation can do: add, remove, or touch servers. -/
theorem step_touches (h : Linked s) (op : Op) :
    (∃ address params hashes, op = .add address params hashes) ∨ (∃ address, op = .del address)
      ∨ Touches (· ≤ ·) s (step s op) := by
  cases op with
  | add address params hashes => exact .inl ⟨address, params, hashes, rfl⟩
  | del address => exact .inr (.inl ⟨address, rfl⟩)
  | disableServer address now =>
      refine .inr (.inr (Touches.mono (fun _ _ => le_of_eq) ?_))
      exact touches_foldl_serverMap h address fun _ _ hu hi => touches_disableOne hu now hi
  | enableServer address =>
      exact .inr (.inr (touches_foldl_serverMap h address
        fun _ _ hu hi => touches_notifyAvailable hu hi))
  | notifyAvailable i =>
      right; right
      simp only [step]
      split_ifs with hi
      · exact touches_notifyAvailable h hi
      · exact .refl
  | notifyUnavailable i now =>
      refine .inr (.inr (Touches.mono (fun _ _ => le_of_eq) ?_))
      simp only [step]
      split_ifs with hi
      · exact touches_notifyUnavailable h now hi
      · exact .refl
  | checkOneBreaker id now =>
      refine .inr (.inr (Touches.mono (fun _ _ => le_of_eq) ?_))
      simp only [step]
      split_ifs
      · exact touches_checkOneBreaker h id now
      · exact .refl
  | checkAllBreaker now =>
      exact .inr (.inr ((touches_checkAllBreaker h now).mono fun _ _ => le_of_eq))

theorem Linked.step (h : Linked s) (op : Op) : Linked (step s op) := by
  obtain ⟨address, params, hashes, rfl⟩ | ⟨address, rfl⟩ | htouches := step_touches h op
  · exact h.add address params hashes
  · exact h.del address
  · exact htouches.linked h

theorem Linked.run (h : Linked s) (ops : List Op) : Linked (run s ops) := by
  induction ops generalizing s with
  | nil => exact h
  | cons op rest ih => exact ih (h.step op)

end WorkflowModel.Manager.Upstream
