import WorkflowModel.Proof.UpstreamPlacement

/-!
# The invariant of an upstream

Beside the lists and the weights it says that an attached server is in a breaker list exactly while it is
broken, and that the counter of a group is the number of its live servers. It is kept by `restate` under
conditions on the one server and the one group, so each operation is checked once, against these
conditions.
-/

namespace WorkflowModel.Manager.Upstream

open Finset

def liveIn (id : Int) (ua : UpstreamAddress) : Int :=
  if ua.group = some id ∧ ua.alive then 1 else 0

theorem liveIn_nonneg (id : Int) (ua : UpstreamAddress) : 0 ≤ liveIn id ua := by
  unfold liveIn
  split_ifs <;> decide

def ungroupedWeight (ua : UpstreamAddress) : Int :=
  if ua.group ≠ none ∧ ua.params.groupId < 0 ∧ ua.params.serverType = .master ∧ ua.alive then
    ua.params.weight
  else
    0

def groupWeight (id : Int) (group : UpstreamGroup) : Int :=
  if 0 ≤ id ∧ 0 < group.nalive then group.weight else 0

/-- What holds of the servers and their groups, also between two rounds of a loop. -/
structure Core (s : Upstream) : Prop where
  fresh : ∀ i, s.count ≤ i → (s.addresses i).group = none ∧ (s.addresses i).inList = false
  normal : ∀ i, 1 ≤ (s.addresses i).params.maxFails ∧ 1 ≤ (s.addresses i).params.weight
    ∧ -1 ≤ (s.addresses i).params.groupId
  home : ∀ i, i < s.count → (s.addresses i).params.groupId ∈ s.groupIds
  attached : ∀ i id, (s.addresses i).group = some id → (s.addresses i).params.groupId = id
  mem_masters : ∀ id i, i ∈ (s.group id).masters
    ↔ (s.addresses i).group = some id ∧ (s.addresses i).params.serverType = .master
  mem_slaves : ∀ id i, i ∈ (s.group id).slaves
    ↔ (s.addresses i).group = some id ∧ (s.addresses i).params.serverType = .slave
  nodup_masters : ∀ id, (s.group id).masters.Nodup
  nodup_slaves : ∀ id, (s.group id).slaves.Nodup
  mem_breakerList : ∀ id i, i ∈ (s.group id).breakerList
    ↔ (s.addresses i).inList = true ∧ (s.addresses i).params.groupId = id
  broken : ∀ i, (s.addresses i).group ≠ none →
    ((s.addresses i).inList = true ↔ (s.addresses i).alive = false)
  nalive : ∀ id, (s.group id).nalive = sumOver s (liveIn id)
  weight : ∀ id, (s.group id).weight = sumOver s (weightIn id)
  total : s.totalWeight = sumOver s masterWeight
  absent : ∀ id, id ∉ s.groupIds → s.group id = emptyGroup
  nodup_groupIds : s.groupIds.Nodup
  default : -1 ∈ s.groupIds

namespace Core

variable {s : Upstream}

theorem placed (h : Core s) : Placed s where
  fresh := h.fresh
  normal := h.normal
  home := h.home
  attached := h.attached
  mem_masters := h.mem_masters
  mem_slaves := h.mem_slaves
  nodup_masters := h.nodup_masters
  nodup_slaves := h.nodup_slaves
  mem_breakerList := h.mem_breakerList
  weight := h.weight
  total := h.total
  absent := h.absent
  nodup_groupIds := h.nodup_groupIds
  default := h.default

theorem of_placed (h : Placed s)
    (hbroken : ∀ i, (s.addresses i).group ≠ none →
      ((s.addresses i).inList = true ↔ (s.addresses i).alive = false))
    (hnalive : ∀ id, (s.group id).nalive = sumOver s (liveIn id)) : Core s where
  fresh := h.fresh
  normal := h.normal
  home := h.home
  attached := h.attached
  mem_masters := h.mem_masters
  mem_slaves := h.mem_slaves
  nodup_masters := h.nodup_masters
  nodup_slaves := h.nodup_slaves
  mem_breakerList := h.mem_breakerList
  broken := hbroken
  nalive := hnalive
  weight := h.weight
  total := h.total
  absent := h.absent
  nodup_groupIds := h.nodup_groupIds
  default := h.default

theorem lt_count (h : Core s) {i : Nat} (hi : (s.addresses i).group ≠ none) : i < s.count :=
  h.placed.lt_count hi

theorem nalive_nonneg (h : Core s) (id : Int) : 0 ≤ (s.group id).nalive := by
  rw [h.nalive]
  exact Finset.sum_nonneg fun i _ => liveIn_nonneg id (s.addresses i)

theorem nalive_pos (h : Core s) {i : Nat} {id : Int} (hi : (s.addresses i).group = some id)
    (halive : (s.addresses i).alive = true) : 0 < (s.group id).nalive := by
  have hlt : i < s.count := h.lt_count (by simp [hi])
  have hle : liveIn id (s.addresses i) ≤ sumOver s (liveIn id) :=
    Finset.single_le_sum (f := fun j => liveIn id (s.addresses j))
      (fun j _ => liveIn_nonneg id (s.addresses j)) (mem_range.2 hlt)
  have hone : liveIn id (s.addresses i) = 1 := by simp [liveIn, hi, halive]
  rw [h.nalive]
  omega

theorem exists_alive (h : Core s) {id : Int} (hpos : (s.group id).nalive ≠ 0) :
    ∃ i, (s.addresses i).group = some id ∧ (s.addresses i).alive = true := by
  rw [h.nalive] at hpos
  obtain ⟨i, -, hi⟩ := Finset.exists_ne_zero_of_sum_ne_zero hpos
  refine ⟨i, ?_⟩
  by_contra hnone
  exact hi (if_neg hnone)

variable {i : Nat} {ua : UpstreamAddress} {id : Int} {group : UpstreamGroup} {available total : Int}

/-- The invariant after one server and its group are replaced, from facts about these two. -/
theorem restate (h : Core s) (hi : i < s.count) (hparams : ua.params = (s.addresses i).params)
    (hid : (s.addresses i).params.groupId = id) (hattached : ∀ k, ua.group = some k → k = id)
    (hmasters : ∀ j, j ∈ group.masters ↔
      if j = i then ua.group = some id ∧ ua.params.serverType = .master
      else j ∈ (s.group id).masters)
    (hslaves : ∀ j, j ∈ group.slaves ↔
      if j = i then ua.group = some id ∧ ua.params.serverType = .slave
      else j ∈ (s.group id).slaves)
    (hnodupM : group.masters.Nodup) (hnodupS : group.slaves.Nodup)
    (hlist : ∀ j, j ∈ group.breakerList ↔
      if j = i then ua.inList = true else j ∈ (s.group id).breakerList)
    (hbroken : ua.group ≠ none → (ua.inList = true ↔ ua.alive = false))
    (hnalive : group.nalive = (s.group id).nalive + (liveIn id ua - liveIn id (s.addresses i)))
    (hweight : group.weight = (s.group id).weight + (weightIn id ua - weightIn id (s.addresses i)))
    (htotal : total = s.totalWeight + (masterWeight ua - masterWeight (s.addresses i))) :
    Core (s.restate i ua id group available total) := by
  have hplaced : Placed (s.restate i ua id group available total) :=
    h.placed.restate hi hparams hid hattached hmasters hslaves hnodupM hnodupS hlist hweight htotal
  refine of_placed hplaced ?_ ?_
  · exact forall_restate_addresses
      (fun _ a => a.group ≠ none → (a.inList = true ↔ a.alive = false)) hbroken h.broken
  · apply sum_restate h.nalive hi
    · refine fun k hk => if_neg fun hP => hk ?_
      rw [← h.attached i k hP.1, hid]
    · exact fun k hk => if_neg fun hP => hk (hattached k hP.1)
    · exact hnalive

/-- The same where the server stays where it is attached and only its state changes. -/
theorem restate_state (h : Core s) (hi : i < s.count) (hparams : ua.params = (s.addresses i).params)
    (hid : (s.addresses i).params.groupId = id) (hsame : ua.group = (s.addresses i).group)
    (hmasters : group.masters = (s.group id).masters) (hslaves : group.slaves = (s.group id).slaves)
    (hlist : ∀ j, j ∈ group.breakerList ↔
      if j = i then ua.inList = true else j ∈ (s.group id).breakerList)
    (hbroken : ua.group ≠ none → (ua.inList = true ↔ ua.alive = false))
    (hnalive : group.nalive = (s.group id).nalive + (liveIn id ua - liveIn id (s.addresses i)))
    (hweight : group.weight = (s.group id).weight) :
    Core (s.restate i ua id group available s.totalWeight) := by
  apply h.restate hi hparams hid
  · intro k hk
    rw [← h.attached i k (hsame ▸ hk), hid]
  · intro j
    split_ifs with hj
    · rw [hmasters, h.mem_masters, hj, hparams, hsame]
    · rw [hmasters]
  · intro j
    split_ifs with hj
    · rw [hslaves, h.mem_slaves, hj, hparams, hsame]
    · rw [hslaves]
  · exact hmasters ▸ h.nodup_masters id
  · exact hslaves ▸ h.nodup_slaves id
  · exact hlist
  · exact hbroken
  · exact hnalive
  · simp [hweight, weightIn, hsame, hparams]
  · simp [masterWeight, hsame, hparams]

end Core

/-- A server changes its state and stays attached where it is. The lists and counters of its group and
the available weight follow. -/
structure Change (s : Upstream) (i : Nat) (ua : UpstreamAddress) (id : Int) (group : UpstreamGroup)
    (available : Int) : Prop where
  lt : i < s.count
  params : ua.params = (s.addresses i).params
  address : ua.address = (s.addresses i).address
  home : (s.addresses i).params.groupId = id
  same : ua.group = (s.addresses i).group
  masters : group.masters = (s.group id).masters
  slaves : group.slaves = (s.group id).slaves
  weight : group.weight = (s.group id).weight
  list : ∀ j, j ∈ group.breakerList ↔
    if j = i then ua.inList = true else j ∈ (s.group id).breakerList
  broken : ua.group ≠ none → (ua.inList = true ↔ ua.alive = false)
  nalive : group.nalive = (s.group id).nalive + (liveIn id ua - liveIn id (s.addresses i))
  available : available = s.availableWeight + (ungroupedWeight ua - ungroupedWeight (s.addresses i))
    + (groupWeight id group - groupWeight id (s.group id))

namespace Change

variable {s : Upstream} {i : Nat} {ua : UpstreamAddress}

theorem quiet (h : Core s) (hi : i < s.count) (hparams : ua.params = (s.addresses i).params)
    (haddress : ua.address = (s.addresses i).address) (hsame : ua.group = (s.addresses i).group)
    (hlist : ua.inList = (s.addresses i).inList)
    (halive : ua.group = none ∨ ua.alive = (s.addresses i).alive) :
    Change s i ua (s.addresses i).params.groupId (s.group (s.addresses i).params.groupId)
      s.availableWeight where
  lt := hi
  params := hparams
  address := haddress
  home := rfl
  same := hsame
  masters := rfl
  slaves := rfl
  weight := rfl
  list j := by
    split_ifs with hj
    · rw [h.mem_breakerList, hj, hlist]
      simp
    · rfl
  broken := by
    intro hne
    rw [hlist, halive.resolve_left hne]
    exact h.broken i (hsame ▸ hne)
  nalive := by
    obtain hnone | hsameAlive := halive
    · simp [liveIn, ← hsame, hnone]
    · simp [liveIn, hsame, hsameAlive]
  available := by
    obtain hnone | hsameAlive := halive
    · simp [ungroupedWeight, ← hsame, hnone]
    · simp [ungroupedWeight, hsame, hparams, hsameAlive]

theorem broke (h : Core s) {id nbreak : Int} (hgroup : (s.addresses i).group = some id)
    (hin : (s.addresses i).inList = false) (hparams : ua.params = (s.addresses i).params)
    (haddress : ua.address = (s.addresses i).address) (hsame : ua.group = (s.addresses i).group)
    (hlist : ua.inList = true) (hdead : ua.alive = false) :
    Change s i ua id
      { s.group id with
        breakerList := (s.group id).breakerList ++ [i]
        nbreak := nbreak
        nalive := (s.group id).nalive - 1 }
      (s.availableWeight - lossOf (s.group id) (s.addresses i)) := by
  have hne : (s.addresses i).group ≠ none := by simp [hgroup]
  have halive : (s.addresses i).alive = true := by
    have hbroken := h.broken i hne
    rw [hin] at hbroken
    simpa using hbroken
  have hid := h.attached i id hgroup
  have hpos := h.nalive_pos hgroup halive
  refine ⟨h.lt_count hne, hparams, haddress, hid, hsame, rfl, rfl, rfl, ?_, ?_, ?_, ?_⟩
  · intro j
    by_cases hj : j = i <;> simp [hj, hlist]
  · simp [hlist, hdead]
  · simp [liveIn, hdead, hgroup, halive]
    ring
  · simp only [ungroupedWeight, hdead, groupWeight, lossOf, hid, hgroup, halive]
    split_ifs <;> simp_all <;> omega

theorem mended (h : Core s) {id : Int} (nbreak : Int) (hgroup : (s.addresses i).group = some id)
    (hdead : (s.addresses i).alive = false) (hparams : ua.params = (s.addresses i).params)
    (haddress : ua.address = (s.addresses i).address) (hsame : ua.group = (s.addresses i).group)
    (hlist : ua.inList = false) (halive : ua.alive = true) :
    Change s i ua id
      { s.group id with
        breakerList := (s.group id).breakerList.filter (· ≠ i)
        nbreak := nbreak
        nalive := (s.group id).nalive + 1 }
      (s.availableWeight + gainOf (s.group id) (s.addresses i)) := by
  have hne : (s.addresses i).group ≠ none := by simp [hgroup]
  have hid := h.attached i id hgroup
  have hnonneg := h.nalive_nonneg id
  refine ⟨h.lt_count hne, hparams, haddress, hid, hsame, rfl, rfl, rfl, ?_, ?_, ?_, ?_⟩
  · intro j
    by_cases hj : j = i <;> simp [hj, hlist]
  · simp [hlist, halive]
  · simp [liveIn, hdead, hsame, hgroup, halive]
  · simp only [ungroupedWeight, hdead, groupWeight, gainOf, hid, hsame, hgroup, halive, hparams]
    split_ifs <;> simp_all <;> omega

/-- A server leaves the breaker list and nothing is gained: it is detached, or it was alive. -/
theorem delisted (hi : i < s.count) (nbreak : Int)
    (hparams : ua.params = (s.addresses i).params)
    (haddress : ua.address = (s.addresses i).address) (hsame : ua.group = (s.addresses i).group)
    (hlist : ua.inList = false)
    (halive : ua.group = none ∨ (ua.alive = true ∧ (s.addresses i).alive = true)) :
    Change s i ua (s.addresses i).params.groupId
      { s.group (s.addresses i).params.groupId with
        breakerList := (s.group (s.addresses i).params.groupId).breakerList.filter (· ≠ i)
        nbreak := nbreak }
      s.availableWeight := by
  refine ⟨hi, hparams, haddress, rfl, hsame, rfl, rfl, rfl, ?_, ?_, ?_, ?_⟩
  · intro j
    by_cases hj : j = i <;> simp [hj, hlist]
  · intro hne
    simp [hlist, (halive.resolve_left hne).1]
  · obtain hnone | ⟨hnew, hold⟩ := halive
    · simp [liveIn, ← hsame, hnone]
    · simp [liveIn, hsame, hnew, hold]
  · obtain hnone | ⟨hnew, hold⟩ := halive
    · simp [ungroupedWeight, groupWeight, ← hsame, hnone]
    · simp [ungroupedWeight, groupWeight, hsame, hparams, hnew, hold]

end Change

inductive Changes (s : Upstream) : Upstream → Prop where
  | refl : Changes s s
  | change {t : Upstream} {i : Nat} {ua : UpstreamAddress} {id : Int} {group : UpstreamGroup}
      {available : Int} (before : Changes s t) (change : Change t i ua id group available) :
      Changes s (t.restate i ua id group available t.totalWeight)

namespace Changes

variable {s t : Upstream}

theorem one {i : Nat} {ua : UpstreamAddress} {id : Int} {group : UpstreamGroup} {available : Int}
    (hchange : Change s i ua id group available) :
    Changes s (s.restate i ua id group available s.totalWeight) :=
  .change .refl hchange

theorem trans {u : Upstream} (h : Changes s t) (h' : Changes t u) : Changes s u := by
  induction h' with
  | refl => exact h
  | change _ hchange ih => exact .change ih hchange

theorem core (h : Changes s t) (hs : Core s) : Core t := by
  induction h with
  | refl => exact hs
  | change _ hchange ih =>
      exact ih.restate_state hchange.lt hchange.params hchange.home hchange.same hchange.masters
        hchange.slaves hchange.list hchange.broken hchange.nalive hchange.weight

theorem frame (h : Changes s t) :
    t.count = s.count ∧ t.masters = s.masters ∧ t.serverMap = s.serverMap
      ∧ t.groupIds = s.groupIds ∧ t.totalWeight = s.totalWeight := by
  induction h with
  | refl => exact ⟨rfl, rfl, rfl, rfl, rfl⟩
  | change _ _ ih => exact ih

theorem address_eq (h : Changes s t) (i : Nat) :
    (t.addresses i).params = (s.addresses i).params
      ∧ (t.addresses i).address = (s.addresses i).address
      ∧ (t.addresses i).group = (s.addresses i).group := by
  induction h with
  | refl => exact ⟨rfl, rfl, rfl⟩
  | change _ hchange ih =>
      rename_i u j ua id group available _
      by_cases hi : i = j
      · rw [hi, restate_addresses_self, hchange.params, hchange.address, hchange.same, ← hi]
        exact ih
      · rw [restate_addresses_of_ne hi]
        exact ih

theorem foldl {α : Type} {f : Upstream → α → Upstream} {Q : α → Upstream → Prop}
    (hQ : ∀ a u v, Changes u v → Q a u → Q a v) (hf : ∀ a u, Core u → Q a u → Changes u (f u a))
    (l : List α) (hs : Core s) (hl : ∀ a ∈ l, Q a s) : Changes s (l.foldl f s) := by
  induction l generalizing s with
  | nil => exact .refl
  | cons a rest ih =>
      have hfirst : Changes s (f s a) := hf a s hs (hl a (List.mem_cons_self ..))
      refine hfirst.trans (ih (hfirst.core hs) ?_)
      intro b hb
      exact hQ b s _ hfirst (hl b (List.mem_cons_of_mem a hb))

end Changes

theorem changes_breakServer {s : Upstream} (h : Core s) {i : Nat} {id : Int} (now : Int)
    {ua : UpstreamAddress} (hgroup : (s.addresses i).group = some id)
    (hin : (s.addresses i).inList = false) (hparams : ua.params = (s.addresses i).params)
    (haddress : ua.address = (s.addresses i).address) (hsame : ua.group = (s.addresses i).group)
    (hdead : ua.alive = false) : Changes s (breakServer id i now (s.setAddress i ua)) := by
  rw [breakServer_setAddress]
  have hloss : lossOf (s.group id) ua = lossOf (s.group id) (s.addresses i) := by
    simp only [lossOf, hparams]
  rw [hloss]
  exact .one (Change.broke h hgroup hin hparams haddress hsame rfl hdead)

theorem changes_setAddress {s : Upstream} (h : Core s) {i : Nat} {ua : UpstreamAddress}
    (hi : i < s.count) (hparams : ua.params = (s.addresses i).params)
    (haddress : ua.address = (s.addresses i).address) (hsame : ua.group = (s.addresses i).group)
    (hlist : ua.inList = (s.addresses i).inList)
    (halive : ua.group = none ∨ ua.alive = (s.addresses i).alive) :
    Changes s (s.setAddress i ua) := by
  rw [setAddress_eq_restate i ua (s.addresses i).params.groupId s]
  exact .one (Change.quiet h hi hparams haddress hsame hlist halive)

theorem changes_disableOne {s : Upstream} (h : Core s) (now : Int) {i : Nat} (hi : i < s.count) :
    Changes s (disableOne now i s) := by
  simp only [disableOne]
  split
  next id hgroup =>
    split
    next hin =>
      have hdead := (h.broken i (by simp [hgroup])).1 hin
      refine changes_setAddress h hi rfl rfl rfl rfl (.inr ?_)
      rw [hdead]
      simp [UpstreamAddress.alive]
    next hin =>
      refine changes_breakServer h now hgroup (by simpa using hin) rfl rfl rfl ?_
      simp [UpstreamAddress.alive]
  next hgroup => exact changes_setAddress h hi rfl rfl rfl rfl (.inl hgroup)

theorem changes_gainOneServer {s : Upstream} (h : Core s) {i : Nat} {id : Int} (nbreak : Int)
    {ua : UpstreamAddress} (hgroup : (s.addresses i).group = some id)
    (hdead : (s.addresses i).alive = false) (hparams : ua.params = (s.addresses i).params)
    (haddress : ua.address = (s.addresses i).address) (hsame : ua.group = (s.addresses i).group)
    (hlist : ua.inList = false) (halive : ua.alive = true) :
    Changes s (((gainOneServer id i s).setGroup id
      { (gainOneServer id i s).group id with
        breakerList := ((gainOneServer id i s).group id).breakerList.filter (· ≠ i)
        nbreak := nbreak }).setAddress i ua) := by
  have hchange := Changes.one
    (Change.mended h nbreak hgroup hdead hparams haddress hsame hlist halive)
  simpa only [gainOneServer_eq, setAddress, setGroup, Upstream.restate, Function.update_self,
    Function.update_idem] using hchange

theorem changes_notifyAvailable {s : Upstream} (h : Core s) {i : Nat} (hi : i < s.count) :
    Changes s (notifyAvailable i s) := by
  have hpos : 0 < (s.addresses i).params.maxFails := (h.normal i).1
  simp only [notifyAvailable]
  split
  next id hgroup =>
    have hbroken := h.broken i (by simp [hgroup])
    split
    next hin =>
      have hdead := hbroken.1 hin
      rw [if_neg (by simp [hdead])]
      refine changes_gainOneServer h ((gainOneServer id i s).group id).nbreak hgroup hdead rfl rfl
        rfl rfl ?_
      simpa [UpstreamAddress.alive] using hpos
    next hin =>
      refine changes_setAddress h hi rfl rfl rfl (by simpa using hin) (.inr ?_)
      have halive : (s.addresses i).alive = true := by simpa [hin] using hbroken
      rw [halive]
      simpa [UpstreamAddress.alive] using hpos
  next hgroup => exact changes_setAddress h hi rfl rfl rfl rfl (.inl hgroup)

theorem changes_notifyUnavailable {s : Upstream} (h : Core s) {i : Nat} (now : Int)
    (hi : i < s.count)
    (hwrap : (s.addresses i).group ≠ none → (s.addresses i).failCount + 1 < 2 ^ 32) :
    Changes s (notifyUnavailable i now s) := by
  simp only [notifyUnavailable]
  split
  next id hgroup =>
    have hgroup : (s.addresses i).group = some id := hgroup
    have hbroken := h.broken i (by simp [hgroup])
    have hcount : ((s.addresses i).failCount + 1) % 2 ^ 32 = (s.addresses i).failCount + 1 :=
      Nat.mod_eq_of_lt (hwrap (by simp [hgroup]))
    split
    next hlimit =>
      refine changes_breakServer h now hgroup hlimit.2 rfl rfl rfl ?_
      simp [UpstreamAddress.alive, hlimit.1]
    next hlimit =>
      refine changes_setAddress h hi rfl rfl rfl rfl (.inr ?_)
      simp only [UpstreamAddress.alive, failOnce, hcount, decide_eq_false_iff_not,
        decide_eq_decide] at hbroken hlimit ⊢
      by_cases hin : (s.addresses i).inList = true
      · have := hbroken.1 hin
        omega
      · have : (s.addresses i).inList = false := by simpa using hin
        simp only [this, and_true] at hlimit
        simp only [this, Bool.false_eq_true, false_iff, not_not] at hbroken
        omega
  next hgroup => exact changes_setAddress h hi rfl rfl rfl rfl (.inl hgroup)

theorem changes_mendOne {s : Upstream} (h : Core s) (now : Int) {i : Nat} (hi : i < s.count) :
    Changes s (mendOne (s.addresses i).params.groupId now i s) := by
  have hpos : 0 < (s.addresses i).params.maxFails := (h.normal i).1
  simp only [mendOne]
  split
  next hdue =>
    by_cases halive : (s.addresses i).alive = true
    · rw [if_pos halive, if_pos halive]
      exact .one (Change.delisted hi _ rfl rfl rfl rfl (.inr ⟨halive, halive⟩))
    rw [if_neg halive, if_neg halive]
    by_cases hgroup : (s.addresses i).group = some (s.addresses i).params.groupId
    · rw [if_pos hgroup]
      refine changes_gainOneServer h _ hgroup (by simpa using halive) rfl rfl rfl rfl ?_
      simpa [UpstreamAddress.alive] using hpos
    · rw [if_neg hgroup]
      -- a server that is attached is attached to its own group
      refine .one (Change.delisted hi _ rfl rfl rfl rfl (.inl ?_))
      cases hsome : (s.addresses i).group with
      | none => rfl
      | some k => exact absurd (h.attached i k hsome ▸ hsome) hgroup
  next => exact .refl

theorem changes_checkOneBreaker {s : Upstream} (h : Core s) (id now : Int) :
    Changes s (checkOneBreaker id now s) := by
  unfold checkOneBreaker
  split
  · exact .refl
  · apply Changes.foldl (Q := fun i u => i < u.count ∧ (u.addresses i).params.groupId = id) _ _ _ h
    · intro i hi
      obtain ⟨hin, hid⟩ := (h.mem_breakerList id i).1 hi
      refine ⟨?_, hid⟩
      by_contra hge
      simp [(h.fresh i (not_lt.1 hge)).2] at hin
    · intro i u v hchanges hQ
      rw [hchanges.frame.1, (hchanges.address_eq i).1]
      exact hQ
    · intro i u hu hQ
      rw [← hQ.2]
      exact changes_mendOne hu now hQ.1

theorem changes_checkAllBreaker {s : Upstream} (h : Core s) (now : Int) :
    Changes s (checkAllBreaker now s) :=
  Changes.foldl (Q := fun _ _ => True) (fun _ _ _ _ _ => trivial)
    (fun id _ hu _ => changes_checkOneBreaker hu id now) _ h (fun _ _ => trivial)

end WorkflowModel.Manager.Upstream
