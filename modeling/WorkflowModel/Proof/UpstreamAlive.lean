import WorkflowModel.Proof.UpstreamGet

/-!
# The server that is chosen is alive

`get` looks at the servers in several ways: the first choice as it is, a member of its group, another
master drawn by weight or by hash, a slave that has no group. What each of them gives is alive, because
the number of live members of a group is exact whenever an operation begins. A choice also reorders the
members of groups, which the invariant does not notice.
-/

namespace WorkflowModel.Manager.Upstream

open WorkflowModel Finset

/-- The members of the groups may come in another order. Nothing else differs. -/
structure Shuffled (s t : Upstream) : Prop where
  same : t = { s with group := t.group }
  masters : ∀ id, (t.group id).masters.Perm (s.group id).masters
  slaves : ∀ id, (t.group id).slaves.Perm (s.group id).slaves
  counters : ∀ id, t.group id
    = { s.group id with masters := (t.group id).masters, slaves := (t.group id).slaves }

namespace Shuffled

variable {s t u : Upstream}

theorem refl (s : Upstream) : Shuffled s s :=
  ⟨rfl, fun _ => .refl _, fun _ => .refl _, fun _ => rfl⟩

theorem addresses_eq (h : Shuffled s t) : t.addresses = s.addresses := by rw [h.same]

theorem trans (h : Shuffled s t) (h' : Shuffled t u) : Shuffled s u where
  same := by
    rw [h'.same, h.same]
  masters id := (h'.masters id).trans (h.masters id)
  slaves id := (h'.slaves id).trans (h.slaves id)
  counters id := by
    rw [h'.counters id, h.counters id]

theorem setGroup (s : Upstream) (id : Int) {masters slaves : List Nat}
    (hmasters : masters.Perm (s.group id).masters) (hslaves : slaves.Perm (s.group id).slaves) :
    Shuffled s (s.setGroup id { s.group id with masters := masters, slaves := slaves }) := by
  refine ⟨rfl, ?_, ?_, ?_⟩ <;> intro k <;> by_cases hk : k = id
  · rw [hk]
    simpa [Upstream.setGroup] using hmasters
  · simp [Upstream.setGroup, Function.update_of_ne hk]
  · rw [hk]
    simpa [Upstream.setGroup] using hslaves
  · simp [Upstream.setGroup, Function.update_of_ne hk]
  · rw [hk]
    simp [Upstream.setGroup]
  · simp [Upstream.setGroup, Function.update_of_ne hk]

/-- The order of the members is no part of the invariant. -/
theorem core (h : Shuffled s t) (hs : Core s) : Core t := by
  have hsum : ∀ f, sumOver t f = sumOver s f := by
    intro f
    rw [h.same]
    rfl
  have hcounters := h.counters
  have haddresses := h.addresses_eq
  have hids : t.groupIds = s.groupIds := by rw [h.same]
  have hcount : t.count = s.count := by rw [h.same]
  have htotal : t.totalWeight = s.totalWeight := by rw [h.same]
  constructor
  case fresh => simpa only [hcount, haddresses] using hs.fresh
  case normal => simpa only [haddresses] using hs.normal
  case home => simpa only [hcount, haddresses, hids] using hs.home
  case attached => simpa only [haddresses] using hs.attached
  case mem_masters =>
    intro id i
    rw [(h.masters id).mem_iff, hs.mem_masters, haddresses]
  case mem_slaves =>
    intro id i
    rw [(h.slaves id).mem_iff, hs.mem_slaves, haddresses]
  case nodup_masters => exact fun id => (h.masters id).nodup_iff.2 (hs.nodup_masters id)
  case nodup_slaves => exact fun id => (h.slaves id).nodup_iff.2 (hs.nodup_slaves id)
  case mem_breakerList =>
    intro id i
    rw [hcounters, hs.mem_breakerList, haddresses]
  case broken => simpa only [haddresses] using hs.broken
  case nalive =>
    intro id
    rw [hcounters, hs.nalive, hsum]
  case weight =>
    intro id
    rw [hcounters, hs.weight, hsum]
  case total => rw [htotal, hs.total, hsum]
  case absent =>
    intro id hid
    rw [hids] at hid
    have hempty := hs.absent id hid
    have hmasters := h.masters id
    have hslaves := h.slaves id
    rw [hempty] at hmasters hslaves
    rw [hcounters, hmasters.eq_nil, hslaves.eq_nil, hempty]
    rfl
  case nodup_groupIds => simpa only [hids] using hs.nodup_groupIds
  case default => simpa only [hids] using hs.default

theorem inv (h : Shuffled s t) (hs : Inv s) : Inv t := by
  refine ⟨h.core hs.toCore, ?_, ?_, ?_⟩
  · rw [h.same]
    exact hs.mem_allMasters
  · rw [h.same]
    exact hs.nodup_allMasters
  · rw [h.same]
    exact hs.mem_serverMap

end Shuffled

/-- A choice in the state `s` reorders groups at most, and what it gives is alive. -/
structure Found (s : Upstream) (result : Option Nat × Upstream) : Prop where
  shuffled : Shuffled s result.2
  alive : ∀ i, result.1 = some i → (s.addresses i).alive = true

theorem Found.nothing (s : Upstream) : Found s (none, s) := ⟨.refl s, by simp⟩

theorem Found.same {s : Upstream} {i : Nat} (h : (s.addresses i).alive = true) : Found s (some i, s) :=
  ⟨.refl s, by simpa using h⟩

section Choices

variable {s : Upstream} (shuffle : Shuffle)

theorem alive_of_find? {l : List Nat} {i : Nat}
    (h : l.find? (fun i => (s.addresses i).alive) = some i) : (s.addresses i).alive = true :=
  List.find?_some (p := fun i => (s.addresses i).alive) h

theorem found_getOne (id : Int) (s : Upstream) : Found s (getOne shuffle id s) := by
  unfold getOne
  split_ifs
  · exact .nothing s
  · have hmasters := Shuffled.setGroup s id (shuffle.perm (s.group id).masters) (.refl (s.group id).slaves)
    dsimp only
    split
    next i hi =>
      refine ⟨hmasters, ?_⟩
      intro j hj
      rw [← Option.some.inj hj]
      exact alive_of_find? hi
    next =>
      refine ⟨hmasters.trans (Shuffled.setGroup _ id (.refl _) (shuffle.perm _)), ?_⟩
      intro j hj
      exact alive_of_find? hj

theorem found_getOneSlave (id : Int) (s : Upstream) : Found s (getOneSlave shuffle id s) := by
  unfold getOneSlave
  split_ifs
  · exact .nothing s
  · refine ⟨Shuffled.setGroup s id (.refl (s.group id).masters) (shuffle.perm _), ?_⟩
    intro j hj
    exact alive_of_find? hj

theorem found_checkGetStrong (i : Nat) (s : Upstream) : Found s (checkGetStrong shuffle i s) := by
  unfold checkGetStrong
  split_ifs with halive
  · exact .same halive
  · exact .nothing s
  · exact found_getOne shuffle _ s

/-- A group that counts a live member has one, so a choice of a broken member of it is replaced. -/
theorem Core.found_checkGetWeak (h : Core s) {choice : Option Nat}
    (hchoice : ∀ i, choice = some i → s.isAliveOrGroupAlive i = true) :
    Found s (checkGetWeak shuffle choice s) := by
  cases choice with
  | none => exact .nothing s
  | some i =>
      have hi := hchoice i rfl
      simp only [isAliveOrGroupAlive, Bool.or_eq_true, Bool.and_eq_true, decide_eq_true_eq] at hi
      simp only [checkGetWeak]
      split_ifs with hbroken
      · have hpos : (s.group (s.addresses i).params.groupId).nalive ≠ 0 := by
          obtain ⟨-, hpos⟩ | ⟨hneg, -⟩ := hi
          · exact hpos.ne'
          · omega
        obtain ⟨j, hj⟩ := Option.ne_none_iff_exists'.1 ((h.getOne_ne_none_iff shuffle _).2 hpos)
        have hone := found_getOne shuffle (s.addresses i).params.groupId s
        refine ⟨hone.shuffled, ?_⟩
        intro k hk
        apply hone.alive
        rw [hj] at hk ⊢
        exact hk
      · apply Found.same
        by_contra hdead
        obtain ⟨hgrouped, -⟩ | ⟨-, halive⟩ := hi
        · exact hbroken ⟨Bool.eq_false_of_not_eq_true hdead, hgrouped⟩
        · exact hdead halive

end Choices

theorem weightedRandomTryAnother_eligible (rand : Nat) (s : Upstream) {i : Nat}
    (h : weightedRandomTryAnother rand s = some i) : s.isAliveOrGroupAlive i = true := by
  unfold weightedRandomTryAnother at h
  split_ifs at h
  have hmem : i ∈ s.masters.filter s.isAliveOrGroupAlive := by
    obtain hpick | ⟨-, hlast⟩ := Option.or_eq_some_iff.1 h
    · rw [pickAbove_eq_pick] at hpick
      exact Shares.mem_of_pick hpick
    · exact List.mem_of_getLast? hlast
  exact (List.mem_filter.1 hmem).2

/-- The nearest node on the ring belongs to one of the masters that are looked at. -/
theorem consistentHashSelect_eligible (hash : Nat) (s : Upstream) {i : Nat}
    (h : consistentHashSelect hash s = some i) : s.isAliveOrGroupAlive i = true := by
  let Eligible : Nat × Option Nat → Prop := fun best =>
    ∀ k, best.2 = some k → s.isAliveOrGroupAlive k = true
  have hall : Eligible ((s.masters.filter s.isAliveOrGroupAlive).foldl (fun best i =>
      (s.addresses i).consistentHash.foldl (fun best node =>
        if circularDistance hash node < best.1 then (circularDistance hash node, some i) else best)
        best) (2 ^ 32 - 1, none)) := by
    apply List.foldlRecOn
    · simp [Eligible]
    · intro best hbest j hj
      apply List.foldlRecOn
      · exact hbest
      · intro best hbest node _
        split_ifs
        · rintro k ⟨⟩
          exact (List.mem_filter.1 hj).2
        · exact hbest
  exact hall i h

theorem Found.again {s : Upstream} {first result : Option Nat × Upstream} (h : Found s first)
    (h' : Found first.2 result) : Found s result := by
  refine ⟨h.shuffled.trans h'.shuffled, ?_⟩
  intro j hj
  rw [← h.shuffled.addresses_eq]
  exact h'.alive j hj

theorem Found.orSlave {s : Upstream} {result : Option Nat × Upstream} (h : Found s result)
    (draws : Draws) : Found s (orSlave draws result) := by
  unfold Upstream.orSlave
  split
  next i hi => exact ⟨h.shuffled, fun j hj => h.alive j (hi.trans hj)⟩
  next => exact h.again (found_getOneSlave draws.shuffle (-1) result.2)

theorem Core.found_secondChoice {s : Upstream} (h : Core s) (mode : Mode) (draws : Draws) (i : Nat) :
    Found (checkAllBreaker draws.now s) (secondChoice mode draws i s) := by
  have hcore := (changes_checkAllBreaker h draws.now).core h
  have hstrong := found_checkGetStrong draws.shuffle i (checkAllBreaker draws.now s)
  have hagain := hstrong.shuffled.core hcore
  unfold secondChoice
  dsimp only
  split_ifs
  -- the strong check found nothing: by hash, then by weight
  · exact hstrong.again (hagain.found_checkGetWeak draws.shuffle
      fun _ => consistentHashSelect_eligible draws.hash _)
  · exact hstrong.again (hagain.found_checkGetWeak draws.shuffle
      fun _ => weightedRandomTryAnother_eligible draws.second _)
  · exact hstrong

/-- `get` chooses in the state it is called in, or in that state with the breakers checked. -/
theorem Core.found_get {s : Upstream} (h : Core s) (mode : Mode) (draws : Draws) :
    Found s (get mode draws s) ∨ Found (checkAllBreaker draws.now s) (get mode draws s) := by
  unfold get
  split_ifs
  · right
    have hcore := (changes_checkAllBreaker h draws.now).core h
    exact (hcore.found_checkGetWeak draws.shuffle
      fun _ => consistentHashSelect_eligible draws.hash _).orSlave draws
  · split
    next => exact .inl (.nothing s)
    next head rest _ =>
      dsimp only
      split_ifs with halive
      · exact .inl (.same halive)
      · exact .inr ((h.found_secondChoice mode draws _).orSlave draws)

theorem Inv.get {s : Upstream} (h : Inv s) (mode : Mode) (draws : Draws) : Inv (get mode draws s).2 := by
  obtain hfound | hfound := h.toCore.found_get mode draws
  · exact hfound.shuffled.inv h
  · exact hfound.shuffled.inv ((changes_checkAllBreaker h.toCore draws.now).inv h)

/-- The states of an upstream whose operations come one at a time, choices among them, as long as no
failure counter of an attached server wraps around. -/
inductive Reached : Upstream → Prop
  | start : Reached emptyUpstream
  | step {s : Upstream} (op : Op) : Reached s → NoWrap s op → Reached (s.step op)
  | get {s : Upstream} (mode : Mode) (draws : Draws) : Reached s → Reached (s.get mode draws).2

theorem Reached.inv {s : Upstream} (h : Reached s) : Inv s := by
  induction h with
  | start => exact inv_emptyUpstream
  | step op _ hwrap ih => exact ih.step hwrap
  | get mode draws _ ih => exact ih.get mode draws

/-- Whatever the mode and the draws, the server that is given has not broken. -/
theorem Reached.failCount_get_lt {s : Upstream} (h : Reached s) (mode : Mode) (draws : Draws) {i : Nat}
    (hi : (s.get mode draws).1 = some i) :
    (((s.get mode draws).2).addresses i).failCount
      < (((s.get mode draws).2).addresses i).params.maxFails := by
  have halive : (((s.get mode draws).2).addresses i).alive = true := by
    obtain hfound | hfound := h.inv.toCore.found_get mode draws
    · rw [hfound.shuffled.addresses_eq]
      exact hfound.alive i hi
    · rw [hfound.shuffled.addresses_eq]
      exact hfound.alive i hi
  exact of_decide_eq_true halive

/-- Of two masters in one group the first breaks, and the second is given in its place. -/
theorem failCount_get_lt_replaced :
    (((run emptyUpstream [.add [1] ⟨1, 1, .master, 0⟩ [], .add [2] ⟨1, 1, .master, 0⟩ [],
        .notifyUnavailable 0 0]).get weightedRandom ⟨0, 0, 0, 0, 10, noShuffle⟩).2.addresses 1).failCount
      < (((run emptyUpstream [.add [1] ⟨1, 1, .master, 0⟩ [], .add [2] ⟨1, 1, .master, 0⟩ [],
        .notifyUnavailable 0 0]).get weightedRandom
          ⟨0, 0, 0, 0, 10, noShuffle⟩).2.addresses 1).params.maxFails :=
  Reached.failCount_get_lt
    (.step (.notifyUnavailable 0 0) (.step (.add [2] ⟨1, 1, .master, 0⟩ [])
      (.step (.add [1] ⟨1, 1, .master, 0⟩ []) .start trivial) trivial) (fun _ => by decide))
    weightedRandom ⟨0, 0, 0, 0, 10, noShuffle⟩ (by decide)

end WorkflowModel.Manager.Upstream
