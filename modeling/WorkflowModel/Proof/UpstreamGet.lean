import WorkflowModel.Lib.Shares
import WorkflowModel.Proof.UpstreamWeight

/-!
# What a weighted random choice finds

The first choice of `get` is drawn by the weights of all masters. If it is broken, the breakers are
checked, and a master or a slave stands in: a member of the group of the first choice, then another
master, as long as weight is available, and at last a slave that has no group. So a live server is missed
exactly where the available weight is 0 and the masters are not alike.
-/

namespace WorkflowModel.Manager.Upstream

open WorkflowModel Finset

/-- The mode of `upstream_create_weighted_random` with `try_another`. -/
def weightedRandom : Mode := { isConsistent := false, hasSelectCallback := false, tryAnother := true }

def LiveSlave (s : Upstream) : Prop := ∃ i ∈ (s.group (-1)).slaves, (s.addresses i).alive = true

section Group

variable {s : Upstream} (shuffle : Shuffle)

theorem find?_shuffle_ne_none (l : List Nat) (p : Nat → Bool) :
    (shuffle.run l).find? p ≠ none ↔ ∃ i ∈ l, p i = true := by
  rw [Ne, List.find?_eq_none]
  push Not
  constructor
  · rintro ⟨i, hi, hp⟩
    exact ⟨i, (shuffle.perm l).mem_iff.1 hi, hp⟩
  · rintro ⟨i, hi, hp⟩
    exact ⟨i, (shuffle.perm l).mem_iff.2 hi, hp⟩

theorem Core.getOne_ne_none_iff (h : Core s) (id : Int) :
    (getOne shuffle id s).1 ≠ none ↔ (s.group id).nalive ≠ 0 := by
  unfold getOne
  by_cases hzero : (s.group id).nalive = 0
  · simp [hzero]
  · rw [if_neg hzero]
    refine iff_of_true ?_ hzero
    obtain ⟨i, hgroup, halive⟩ := h.exists_alive hzero
    simp only [setGroup, Function.update_self]
    split
    · simp
    next hnone =>
      rw [List.find?_eq_none] at hnone
      refine (find?_shuffle_ne_none shuffle _ _).2 ⟨i, ?_, halive⟩
      rw [h.mem_slaves]
      refine ⟨hgroup, ?_⟩
      cases htype : (s.addresses i).params.serverType with
      | slave => rfl
      | master =>
          have hmem : i ∈ (s.group id).masters := (h.mem_masters id i).2 ⟨hgroup, htype⟩
          exact absurd halive (hnone i ((shuffle.perm _).mem_iff.2 hmem))

theorem Core.getOneSlave_ne_none_iff (h : Core s) :
    (getOneSlave shuffle (-1) s).1 ≠ none ↔ LiveSlave s := by
  unfold getOneSlave LiveSlave
  by_cases hzero : (s.group (-1)).nalive = 0
  · rw [if_pos hzero]
    refine iff_of_false (by simp) ?_
    rintro ⟨i, hi, halive⟩
    have hpos := h.nalive_pos ((h.mem_slaves (-1) i).1 hi).1 halive
    omega
  · rw [if_neg hzero]
    exact find?_shuffle_ne_none shuffle _ _

/-- The first choice is kept, or replaced within its group, exactly if it or its group is alive. -/
theorem Core.checkGetStrong_ne_none_iff (h : Core s) {i : Nat} (hi : (s.addresses i).group ≠ none) :
    (checkGetStrong shuffle i s).1 ≠ none ↔ s.isAliveOrGroupAlive i = true := by
  obtain ⟨id, hgroup⟩ := Option.ne_none_iff_exists'.1 hi
  have hid := h.attached i id hgroup
  have hnonneg := h.nalive_nonneg id
  unfold checkGetStrong
  simp only [isAliveOrGroupAlive, hid, Bool.or_eq_true, Bool.and_eq_true, decide_eq_true_eq]
  by_cases halive : (s.addresses i).alive = true
  · have hpos := h.nalive_pos hgroup halive
    simp [halive]
    omega
  · rw [if_neg halive]
    by_cases hneg : id < 0
    · simp [hneg, halive]
    · rw [if_neg hneg, h.getOne_ne_none_iff]
      simp [halive]
      omega

theorem Core.checkGetStrong_of_none (h : Core s) {i : Nat}
    (hnone : (checkGetStrong shuffle i s).1 = none) : (checkGetStrong shuffle i s).2 = s := by
  unfold checkGetStrong at hnone ⊢
  split_ifs at hnone ⊢
  · rfl
  · have hzero := not_not.1 (mt (h.getOne_ne_none_iff shuffle _).2 (not_not.2 hnone))
    unfold getOne
    rw [if_pos hzero]

end Group

theorem checkGetWeak_ne_none_iff (shuffle : Shuffle) (choice : Option Nat) (s : Upstream) :
    (checkGetWeak shuffle choice s).1 ≠ none ↔ choice ≠ none := by
  cases choice with
  | none => simp [checkGetWeak]
  | some i =>
      simp only [checkGetWeak]
      split_ifs
      · simp
      · simp

theorem weightedRandomTryAnother_ne_none_iff (rand : Nat) (s : Upstream) :
    weightedRandomTryAnother rand s ≠ none
      ↔ s.availableWeight ≠ 0 ∧ ∃ i ∈ s.masters, s.isAliveOrGroupAlive i = true := by
  unfold weightedRandomTryAnother
  by_cases hzero : s.availableWeight = 0
  · simp [hzero]
  · rw [if_neg hzero]
    simp only [hzero, ne_eq, not_false_eq_true, true_and]
    constructor
    · intro hsome
      by_contra hnone
      push Not at hnone
      have hempty : s.masters.filter s.isAliveOrGroupAlive = [] := by
        rw [List.filter_eq_nil_iff]
        exact hnone
      rw [hempty] at hsome
      exact hsome rfl
    · rintro ⟨i, hi, halive⟩ hnone
      have hlast := (Option.or_eq_none_iff.1 hnone).2
      rw [List.getLast?_eq_none_iff, List.filter_eq_nil_iff] at hlast
      exact hlast i hi halive

/-- The weight that `get` draws by. -/
def weightOf (s : Upstream) (i : Nat) : Int := (s.addresses i).params.weight

theorem pickAbove_eq_pick (s : Upstream) (x sum : Int) (l : List Nat) :
    pickAbove s x sum l = Shares.pick s.weightOf x sum l := by
  induction l generalizing sum with
  | nil => rfl
  | cons i rest ih =>
      simp only [pickAbove, Shares.pick, ih]
      rfl

theorem weightOf_nonneg (s : Upstream) (i : Nat) : 0 ≤ s.weightOf i := Int.natCast_nonneg _

theorem firstChoice_mem (draws : Draws) (s : Upstream) (head : Nat) (rest : List Nat) :
    firstChoice weightedRandom draws s head rest ∈ head :: rest := by
  unfold firstChoice
  by_cases hrest : rest = []
  · rw [if_pos hrest]
    exact List.mem_cons_self ..
  · simp only [if_neg hrest, weightedRandom, Bool.false_eq_true, if_false]
    generalize (if 0 < s.totalWeight then Int.tmod draws.first s.totalWeight else 0) = x
    cases hpick : pickAbove s x 0 (head :: rest) with
    | none => exact List.getLast_mem _
    | some i =>
        rw [pickAbove_eq_pick] at hpick
        exact Shares.mem_of_pick hpick

def weights (s : Upstream) (l : List Nat) : Int := (l.map fun i => ((s.addresses i).params.weight : Int)).sum

theorem Inv.totalWeight_eq {s : Upstream} (h : Inv s) : s.totalWeight = weights s s.masters := by
  rw [h.total, ← h.sum_masters, List.sum_toFinset _ h.nodup_allMasters, weights]
  · congr 1
    apply List.map_congr_left
    intro i hi
    simp [masterWeight, (h.mem_allMasters i).1 hi]
  · intro ua hua
    exact if_neg hua

theorem Inv.exists_firstChoice {s : Upstream} (h : Inv s) {head : Nat} {rest : List Nat}
    (hmasters : s.masters = head :: rest) {i : Nat} (hi : i ∈ s.masters) (draws : Draws) :
    ∃ first, firstChoice weightedRandom { draws with first := first } s head rest = i := by
  obtain ⟨before, after, hsplit⟩ := List.append_of_mem hi
  have hnodup := h.nodup_allMasters
  rw [hsplit] at hnodup
  have hweight : 1 ≤ s.weightOf i := Int.ofNat_le.2 (h.normal i).2.1
  have hbefore := Shares.total_nonneg (l := before) fun j _ => s.weightOf_nonneg j
  have hafter := Shares.total_nonneg (l := after) fun j _ => s.weightOf_nonneg j
  have htotal : s.totalWeight = Shares.total s.weightOf (before ++ i :: after) := by
    rw [← hsplit]
    exact h.totalWeight_eq
  rw [Shares.total_append, Shares.total_cons] at htotal
  refine ⟨(Shares.total s.weightOf before).toNat, ?_⟩
  unfold firstChoice
  by_cases hrest : rest = []
  · rw [if_pos hrest]
    rw [hmasters, hrest, List.mem_singleton] at hi
    exact hi.symm
  · have hdraw : Int.tmod ((Shares.total s.weightOf before).toNat : Int) s.totalWeight
        = Shares.total s.weightOf before := by
      rw [Int.toNat_of_nonneg hbefore, Int.tmod_eq_of_lt hbefore (by omega)]
    have hpick := (Shares.pick_eq_some_iff hnodup (fun j _ => s.weightOf_nonneg j) hbefore).2
      ⟨by omega, by omega⟩
    rw [← hsplit, hmasters, ← hdraw, ← pickAbove_eq_pick] at hpick
    simp only [if_neg hrest, weightedRandom, Bool.false_eq_true, if_false]
    rw [if_pos (by omega), hpick, Option.getD_some]

theorem mendOne_alive (id now : Int) (i j : Nat) (s : Upstream) (h : (s.addresses j).alive = true) :
    ((mendOne id now i s).addresses j).alive = true := by
  simp only [mendOne]
  split
  next =>
    simp only [setGroup, setAddress]
    by_cases hj : j = i
    · rw [hj] at h ⊢
      rw [Function.update_self]
      simp only [h, if_true]
      exact h
    · rw [Function.update_of_ne hj]
      split_ifs
      · exact h
      · rw [gainOneServer_eq]
        exact h
      · exact h
  next => exact h

theorem checkAllBreaker_alive (now : Int) (j : Nat) (s : Upstream)
    (h : (s.addresses j).alive = true) : ((checkAllBreaker now s).addresses j).alive = true := by
  have hone : ∀ (id : Int) (l : List Nat) (u : Upstream), (u.addresses j).alive = true →
      ((l.foldl (fun u i => mendOne id now i u) u).addresses j).alive = true := by
    intro id l
    induction l with
    | nil => exact fun u hu => hu
    | cons i rest ih => exact fun u hu => ih _ (mendOne_alive id now i j u hu)
  unfold checkAllBreaker
  generalize s.groupIds = ids
  induction ids generalizing s with
  | nil => exact h
  | cons id rest ih =>
      apply ih
      change ((checkOneBreaker id now s).addresses j).alive = true
      unfold checkOneBreaker
      split_ifs
      · exact h
      · exact hone id _ s h

theorem orSlave_ne_none_iff (draws : Draws) (result : Option Nat × Upstream) :
    (orSlave draws result).1 ≠ none
      ↔ result.1 ≠ none ∨ (getOneSlave draws.shuffle (-1) result.2).1 ≠ none := by
  unfold orSlave
  cases result.1 <;> simp

theorem Inv.get_ne_none_iff {s : Upstream} (h : Inv s) (draws : Draws) {head : Nat} {rest : List Nat}
    (hmasters : s.masters = head :: rest) {i : Nat}
    (hi : firstChoice weightedRandom draws s head rest = i) :
    (get weightedRandom draws s).1 ≠ none ↔
      (s.checkAllBreaker draws.now).isAliveOrGroupAlive i = true
      ∨ ((s.checkAllBreaker draws.now).availableWeight ≠ 0
        ∧ ∃ j ∈ s.masters, (s.checkAllBreaker draws.now).isAliveOrGroupAlive j = true)
      ∨ LiveSlave (s.checkAllBreaker draws.now) := by
  have hchanges := changes_checkAllBreaker h.toCore draws.now
  have hcore := hchanges.core h.toCore
  have hlist : (s.checkAllBreaker draws.now).masters = s.masters := hchanges.frame.2.1
  have hmem : i ∈ s.masters := by
    rw [hmasters, ← hi]
    exact firstChoice_mem draws s head rest
  have hattached : ((s.checkAllBreaker draws.now).addresses i).group ≠ none := by
    rw [(hchanges.address_eq i).2.2]
    exact ((h.mem_allMasters i).1 hmem).1
  have hmono := checkAllBreaker_alive draws.now i s
  have hget : get weightedRandom draws s =
      if (s.addresses i).alive then (some i, s)
      else orSlave draws (secondChoice weightedRandom draws i s) := by
    simp only [get, weightedRandom, hmasters, Bool.false_eq_true, if_false, ← hi]
    rfl
  rw [hget]
  unfold secondChoice
  generalize s.checkAllBreaker draws.now = t at *
  have hstrong := hcore.checkGetStrong_ne_none_iff draws.shuffle hattached
  by_cases halive : (s.addresses i).alive = true
  · rw [if_pos halive]
    refine iff_of_true (by simp) (.inl (hstrong.1 ?_))
    simp [checkGetStrong, hmono halive]
  · rw [if_neg halive]
    rw [orSlave_ne_none_iff]
    by_cases husable : t.isAliveOrGroupAlive i = true
    · have hsome := hstrong.2 husable
      simp [hsome, husable]
    · have hnone : (checkGetStrong draws.shuffle i t).1 = none :=
        not_not.1 (mt hstrong.1 husable)
      have hsame := hcore.checkGetStrong_of_none draws.shuffle hnone
      simp only [hnone, weightedRandom, and_self, if_true, Bool.false_eq_true, if_false, hsame, husable,
        false_or]
      rw [checkGetWeak_ne_none_iff, ← hlist, ← weightedRandomTryAnother_ne_none_iff draws.second]
      cases weightedRandomTryAnother draws.second t with
      | none =>
          simp only [checkGetWeak, ne_eq, not_true_eq_false, false_or]
          exact hcore.getOneSlave_ne_none_iff draws.shuffle
      | some j => simp

/-- Some server could be given: a live ungrouped master, a master whose group counts a live member, or a
live ungrouped slave. -/
def Servable (s : Upstream) : Prop :=
  (∃ i ∈ s.masters, (s.addresses i).params.groupId < 0 ∧ (s.addresses i).alive = true)
    ∨ (∃ i ∈ s.masters, 0 ≤ (s.addresses i).params.groupId
      ∧ 0 < (s.group (s.addresses i).params.groupId).nalive)
    ∨ LiveSlave s

/-- Whatever is drawn at the time `now`, `get` gives a server if one is there after the check. -/
def AlwaysServed (s : Upstream) (now : Int) : Prop :=
  ∀ draws : Draws, draws.now = now → Servable (s.checkAllBreaker now) →
    (get weightedRandom draws s).1 ≠ none

/-- Weight is available, or a slave can stand in, or it does not matter which master is drawn. -/
def Covered (s : Upstream) : Prop :=
  s.availableWeight ≠ 0 ∨ LiveSlave s ∨ (∀ i ∈ s.masters, s.isAliveOrGroupAlive i = true)
    ∨ ∀ i ∈ s.masters, s.isAliveOrGroupAlive i = false

theorem servable_iff (s : Upstream) :
    Servable s ↔ (∃ i ∈ s.masters, s.isAliveOrGroupAlive i = true) ∨ LiveSlave s := by
  simp only [Servable, isAliveOrGroupAlive, Bool.or_eq_true, Bool.and_eq_true, decide_eq_true_eq]
  constructor
  · rintro (⟨i, hi, halive⟩ | ⟨i, hi, halive⟩ | hslave)
    · exact .inl ⟨i, hi, .inr halive⟩
    · exact .inl ⟨i, hi, .inl halive⟩
    · exact .inr hslave
  · rintro (⟨i, hi, halive | halive⟩ | hslave)
    · exact .inr (.inl ⟨i, hi, halive⟩)
    · exact .inl ⟨i, hi, halive⟩
    · exact .inr (.inr hslave)

def noShuffle : Shuffle := ⟨fun l => l, fun l => .refl l⟩

theorem Inv.alwaysServed_iff {s : Upstream} (h : Inv s) (hmasters : s.masters ≠ []) (now : Int) :
    AlwaysServed s now ↔ Covered (s.checkAllBreaker now) := by
  obtain ⟨head, rest, hcons⟩ := List.exists_cons_of_ne_nil hmasters
  have hlist : (s.checkAllBreaker now).masters = s.masters :=
    (changes_checkAllBreaker h.toCore now).frame.2.1
  constructor
  · intro hserved
    by_contra hcovered
    simp only [Covered, hlist, not_or, not_not, not_forall, Bool.not_eq_true, Bool.not_eq_false]
      at hcovered
    obtain ⟨hzero, hslave, ⟨i, hi, hdead⟩, j, hj, halive⟩ := hcovered
    -- the master that is not alive is drawn first
    obtain ⟨first, hfirst⟩ := h.exists_firstChoice hcons hi
      { hash := 0, select := 0, first := 0, second := 0, now := now, shuffle := noShuffle }
    have hservable : Servable (s.checkAllBreaker now) := by
      rw [servable_iff, hlist]
      exact .inl ⟨j, hj, halive⟩
    have hget := (h.get_ne_none_iff _ hcons hfirst).1 (hserved _ rfl hservable)
    obtain hfound | ⟨havailable, -⟩ | hfound := hget
    · simp [hdead] at hfound
    · exact havailable hzero
    · exact hslave hfound
  · rintro hcovered draws rfl hservable
    rw [servable_iff, hlist] at hservable
    have hchoice := firstChoice_mem draws s head rest
    rw [← hcons] at hchoice
    rw [h.get_ne_none_iff draws hcons rfl]
    obtain ⟨j, hj, halive⟩ | hslave := hservable
    · simp only [Covered, hlist] at hcovered
      obtain havailable | hslave | hall | hnone := hcovered
      · exact .inr (.inl ⟨havailable, j, hj, halive⟩)
      · exact .inr (.inr hslave)
      · exact .inl (hall _ hchoice)
      · simp [hnone j hj] at halive
    · exact .inr (.inr hslave)

/-- In every state that a run reaches, `get` misses no server exactly if the state is covered after the
check of the breakers. -/
theorem alwaysServed_iff_covered {ops : List Op} (hwraps : NoWraps emptyUpstream ops)
    (hmasters : (run emptyUpstream ops).masters ≠ []) (now : Int) :
    AlwaysServed (run emptyUpstream ops) now
      ↔ Covered ((run emptyUpstream ops).checkAllBreaker now) :=
  (inv_emptyUpstream.run hwraps).alwaysServed_iff hmasters now

/-- Where no attached master has a group and the weights are right, weight is available as soon as some
master can be chosen. -/
theorem covered_of_noneForgotten {s : Upstream} (h : Inv s) (hs : NoneForgotten s)
    (hzero : surplus s = 0) : Covered s := by
  by_cases hnone : ∀ i ∈ s.masters, s.isAliveOrGroupAlive i = false
  · exact .inr (.inr (.inr hnone))
  left
  push Not at hnone
  obtain ⟨i, hi, halive⟩ := hnone
  rw [Bool.ne_false_iff] at halive
  obtain ⟨hattached, hmaster⟩ := (h.mem_allMasters i).1 hi
  have hweight : 1 ≤ (s.addresses i).params.weight := (h.normal i).2.1
  have hgroup : (s.addresses i).params.groupId < 0 := by
    have hforgotten := hs i hattached
    simp only [forgottenWeight, ownWeight, hmaster, if_true] at hforgotten
    split_ifs at hforgotten
    · omega
    · omega
  have hown : ungroupedWeight (s.addresses i) = (s.addresses i).params.weight := by
    simp only [isAliveOrGroupAlive, Bool.or_eq_true, Bool.and_eq_true, decide_eq_true_eq] at halive
    refine if_pos ⟨hattached, hgroup, hmaster, ?_⟩
    obtain hgrouped | hungrouped := halive
    · omega
    · exact hungrouped.2
  have hle : ungroupedWeight (s.addresses i) ≤ sumOver s ungroupedWeight :=
    Finset.single_le_sum (f := fun j => ungroupedWeight (s.addresses j))
      (fun j _ => ungroupedWeight_nonneg (s.addresses j)) (mem_range.2 (h.lt_count hattached))
  have hgroups : 0 ≤ ∑ id ∈ s.groupIds.toFinset, groupWeight id (s.group id) :=
    Finset.sum_nonneg fun id _ => h.groupWeight_nonneg id
  unfold surplus at hzero
  omega

theorem alwaysServed_of_no_groupedMaster {ops : List Op} (hwraps : NoWraps emptyUpstream ops)
    (hops : ∀ op ∈ ops, ¬ op.AddsGroupedMaster) (hmasters : (run emptyUpstream ops).masters ≠ [])
    (now : Int) : AlwaysServed (run emptyUpstream ops) now := by
  have hinv := inv_emptyUpstream.run hwraps
  obtain ⟨hnone, hsurplus⟩ := noneForgotten_emptyUpstream.run inv_emptyUpstream hwraps hops
  have hchanges := changes_checkAllBreaker hinv.toCore now
  rw [hinv.alwaysServed_iff hmasters]
  apply covered_of_noneForgotten (hchanges.inv hinv) (hnone.changes hchanges)
  rw [hchanges.surplus_eq hinv.toCore, hsurplus, surplus_emptyUpstream]

/-- A live master of the group 1 and a broken master without a group. -/
def liveGroupBrokenMaster : List Op :=
  [.add [1] ⟨1, 1, .master, 1⟩ [], .add [2] ⟨1, 1, .master, -1⟩ [], .notifyUnavailable 1 0]

theorem not_alwaysServed_liveGroupBrokenMaster :
    ¬ AlwaysServed (run emptyUpstream liveGroupBrokenMaster) 0 := by
  intro hserved
  have hget := hserved
    { hash := 0, select := 0, first := 1, second := 0, now := 0, shuffle := noShuffle } rfl
  apply hget
  · right
    left
    exact ⟨0, by decide, by decide, by decide⟩
  · decide

def liveGroupBrokenMasterSlave : List Op :=
  liveGroupBrokenMaster ++ [.add [3] ⟨1, 1, .slave, -1⟩ []]

theorem alwaysServed_liveGroupBrokenMasterSlave :
    NoWraps emptyUpstream liveGroupBrokenMasterSlave
      ∧ (run emptyUpstream liveGroupBrokenMasterSlave).masters ≠ []
      ∧ AlwaysServed (run emptyUpstream liveGroupBrokenMasterSlave) 0 := by
  have hwraps : NoWraps emptyUpstream liveGroupBrokenMasterSlave := by
    simp only [liveGroupBrokenMasterSlave, liveGroupBrokenMaster, List.cons_append, List.nil_append,
      NoWraps, NoWrap]
    decide
  have hmasters : (run emptyUpstream liveGroupBrokenMasterSlave).masters ≠ [] := by decide
  refine ⟨hwraps, hmasters, (alwaysServed_iff_covered hwraps hmasters 0).2 ?_⟩
  right
  left
  exact ⟨2, by decide, by decide⟩

end WorkflowModel.Manager.Upstream
