import WorkflowModel.Proof.UpstreamRuns
import WorkflowModel.Lib.Nearest

/-!
# Consistent hashing

The scan of `consistent_hash_select` goes over the virtual nodes of all masters that are looked at and
keeps the nearest one. Two 32-bit numbers are at most `2^31` apart on the ring, so the scan never stays at
the distance it starts from. What one master has to do with it is only its own nodes: without them every
hash that they had not won goes where it went.
-/

namespace WorkflowModel.Manager.Upstream

def virtualGroupSize : Nat := 16

/-- The distance of two points of the ring of the 32-bit numbers, the shorter way round. -/
def ringDistance (hash node : Nat) : Int :=
  min (((hash : Int) - node) % 2 ^ 32) (((node : Int) - hash) % 2 ^ 32)

theorem circularDistance_eq {hash node : Nat} (hhash : hash < 2 ^ 32) (hnode : node < 2 ^ 32) :
    (circularDistance hash node : Int) = ringDistance hash node := by
  unfold circularDistance ringDistance
  omega

theorem circularDistance_lt {hash node : Nat} (hhash : hash < 2 ^ 32) (hnode : node < 2 ^ 32) :
    circularDistance hash node < 2 ^ 32 - 1 := by
  unfold circularDistance
  omega

def candidates (s : Upstream) : List (Nat × Nat) :=
  (s.masters.filter s.isAliveOrGroupAlive).flatMap fun i =>
    (s.addresses i).consistentHash.map fun node => (i, node)

/-- The hashes of every master are as many 32-bit numbers as its constructor makes. -/
def Hashed (s : Upstream) : Prop :=
  ∀ i ∈ s.masters, (s.addresses i).consistentHash.length = virtualGroupSize
    ∧ ∀ node ∈ (s.addresses i).consistentHash, node < 2 ^ 32

theorem mem_candidates {s : Upstream} {i node : Nat} :
    (i, node) ∈ candidates s ↔
      (i ∈ s.masters ∧ s.isAliveOrGroupAlive i = true) ∧ node ∈ (s.addresses i).consistentHash := by
  simp only [candidates, List.mem_flatMap, List.mem_filter, List.mem_map, Prod.mk.injEq]
  constructor
  · rintro ⟨j, hj, n, hn, rfl, rfl⟩
    exact ⟨hj, hn⟩
  · rintro ⟨hi, hnode⟩
    exact ⟨i, hi, node, hnode, rfl, rfl⟩

section Select

variable {s t : Upstream} {hash m : Nat}

theorem consistentHashSelect_eq_foldl (hash : Nat) (s : Upstream) :
    consistentHashSelect hash s = ((candidates s).foldl (fun best c =>
      if circularDistance hash c.2 < best.1 then (circularDistance hash c.2, some c.1) else best)
      (2 ^ 32 - 1, none)).2 := by
  simp only [consistentHashSelect, candidates, List.foldl_flatMap, List.foldl_map]

theorem consistentHashSelect_eq (h : Hashed s) (hhash : hash < 2 ^ 32) :
    consistentHashSelect hash s
      = ((candidates s).argmin fun c => circularDistance hash c.2).map Prod.fst := by
  have hnear : ∀ c ∈ candidates s, circularDistance hash c.2 < 2 ^ 32 - 1 := by
    rintro ⟨i, node⟩ hc
    obtain ⟨⟨hi, -⟩, hnode⟩ := mem_candidates.1 hc
    exact circularDistance_lt hhash ((h i hi).2 node hnode)
  -- the code keeps the master and forgets the node
  let dist (c : Nat × Nat) : Nat := circularDistance hash c.2
  let forget (best : Nat × Option (Nat × Nat)) : Nat × Option Nat := (best.1, best.2.map Prod.fst)
  have hforget : (candidates s).foldl
        (fun best c => if dist c < best.1 then (dist c, some c.1) else best) (forget (2 ^ 32 - 1, none))
      = forget ((candidates s).foldl (Nearest.scanStep dist) (2 ^ 32 - 1, none)) := by
    apply List.foldl_hom forget
    intro best c
    simp only [forget, Nearest.scanStep]
    split_ifs <;> rfl
  rw [Nearest.foldl_scanStep hnear] at hforget
  rw [consistentHashSelect_eq_foldl]
  exact congrArg Prod.snd hforget

theorem candidates_eq_nil (h : Hashed s) :
    candidates s = [] ↔ ∀ i ∈ s.masters, s.isAliveOrGroupAlive i = false := by
  constructor
  · intro hnil i hi
    by_contra halive
    have hlength := (h i hi).1
    obtain ⟨node, hnode⟩ : ∃ node, node ∈ (s.addresses i).consistentHash := by
      apply List.exists_mem_of_ne_nil
      intro hempty
      rw [hempty] at hlength
      exact absurd hlength (by decide)
    have hmem : (i, node) ∈ candidates s := mem_candidates.2 ⟨⟨hi, by simpa using halive⟩, hnode⟩
    rw [hnil] at hmem
    cases hmem
  · intro hnone
    apply List.eq_nil_iff_forall_not_mem.2
    rintro ⟨i, node⟩ hc
    obtain ⟨⟨hi, halive⟩, -⟩ := mem_candidates.1 hc
    rw [hnone i hi] at halive
    cases halive

theorem consistentHashSelect_eq_none_iff (h : Hashed s) (hhash : hash < 2 ^ 32) :
    consistentHashSelect hash s = none ↔ ∀ i ∈ s.masters, s.isAliveOrGroupAlive i = false := by
  rw [consistentHashSelect_eq h hhash, Option.map_eq_none_iff, List.argmin_eq_none,
    candidates_eq_nil h]

/-- The master `i` is looked at, and one of its nodes is nearest to `hash`. -/
def IsNearest (s : Upstream) (hash i : Nat) : Prop :=
  i ∈ s.masters ∧ s.isAliveOrGroupAlive i = true ∧
    ∃ node ∈ (s.addresses i).consistentHash,
      ∀ j ∈ s.masters, s.isAliveOrGroupAlive j = true → ∀ other ∈ (s.addresses j).consistentHash,
        ringDistance hash node ≤ ringDistance hash other

theorem nearest_of_consistentHashSelect (h : Hashed s) (hhash : hash < 2 ^ 32) {i : Nat}
    (hi : consistentHashSelect hash s = some i) : IsNearest s hash i := by
  rw [consistentHashSelect_eq h hhash] at hi
  obtain ⟨⟨j, node⟩, hmin, rfl⟩ := Option.map_eq_some_iff.1 hi
  obtain ⟨⟨hj, halive⟩, hnode⟩ := mem_candidates.1 (List.argmin_mem hmin)
  refine ⟨hj, halive, node, hnode, ?_⟩
  intro k hk hother other hmem
  have hle := List.le_of_mem_argmin (mem_candidates.2 ⟨⟨hk, hother⟩, hmem⟩) hmin
  rw [← circularDistance_eq hhash ((h j hj).2 node hnode),
    ← circularDistance_eq hhash ((h k hk).2 other hmem)]
  exact Int.ofNat_le.2 hle

/-- `t` is `s` without the nodes of the master `m`. -/
def Without (m : Nat) (s t : Upstream) : Prop :=
  candidates t = (candidates s).filter fun c => c.1 ≠ m

theorem consistentHashSelect_without (hs : Hashed s) (ht : Hashed t) (hhash : hash < 2 ^ 32)
    (hwithout : Without m s t) (hother : consistentHashSelect hash s ≠ some m) :
    consistentHashSelect hash t = consistentHashSelect hash s := by
  rw [consistentHashSelect_eq hs hhash] at hother ⊢
  rw [consistentHashSelect_eq ht hhash, hwithout]
  exact Nearest.map_argmin_filter_ne hother

/-- All other masters have the same hashes and are looked at alike. -/
def SameOthers (m : Nat) (s t : Upstream) : Prop :=
  ∀ i, i ≠ m → (t.addresses i).consistentHash = (s.addresses i).consistentHash
    ∧ t.isAliveOrGroupAlive i = s.isAliveOrGroupAlive i

theorem filter_candidates (m : Nat) (s : Upstream) :
    ((candidates s).filter fun c => c.1 ≠ m) = ((s.masters.filter (· ≠ m)).filter
      s.isAliveOrGroupAlive).flatMap fun i => (s.addresses i).consistentHash.map fun node => (i, node) := by
  unfold candidates
  induction s.masters with
  | nil => rfl
  | cons i rest ih =>
      by_cases hi : i = m <;> by_cases halive : s.isAliveOrGroupAlive i = true <;>
        simp_all

theorem filter_candidates_congr (h : SameOthers m s t)
    (hmasters : t.masters.filter (· ≠ m) = s.masters.filter (· ≠ m)) :
    ((candidates t).filter fun c => c.1 ≠ m) = (candidates s).filter fun c => c.1 ≠ m := by
  have hne : ∀ i ∈ s.masters.filter (· ≠ m), i ≠ m := by
    intro i hi
    simpa using (List.mem_filter.1 hi).2
  rw [filter_candidates, filter_candidates, hmasters,
    List.filter_congr fun i hi => (h i (hne i hi)).2]
  apply List.flatMap_congr
  intro i hi
  rw [(h i (hne i (List.mem_filter.1 hi).1)).1]

theorem filter_candidates_eq_self (h : m ∈ s.masters → s.isAliveOrGroupAlive m = false) :
    ((candidates s).filter fun c => c.1 ≠ m) = candidates s := by
  apply List.filter_eq_self.2
  rintro ⟨i, node⟩ hc
  obtain ⟨⟨hi, halive⟩, -⟩ := mem_candidates.1 hc
  rw [decide_eq_true_eq]
  rintro rfl
  rw [h hi] at halive
  cases halive

/-- The master `m` is no longer looked at, or it is no longer there. -/
def Loses (m : Nat) (s t : Upstream) : Prop :=
  SameOthers m s t ∧
    ((t.masters = s.masters ∧ t.isAliveOrGroupAlive m = false) ∨ t.masters = s.masters.filter (· ≠ m))

/-- The master `m` comes to be looked at, or it is appended. -/
def Gains (m : Nat) (s t : Upstream) : Prop :=
  SameOthers m s t ∧
    ((t.masters = s.masters ∧ s.isAliveOrGroupAlive m = false) ∨
      (t.masters = s.masters ++ [m] ∧ m ∉ s.masters))

theorem Loses.without (h : Loses m s t) : Without m s t := by
  obtain ⟨hothers, ⟨hmasters, hdead⟩ | hmasters⟩ := h
  · rw [Without, ← filter_candidates_congr hothers (by rw [hmasters])]
    exact (filter_candidates_eq_self fun _ => hdead).symm
  · have hgone : m ∉ t.masters := by
      rw [hmasters]
      simp
    rw [Without, ← filter_candidates_congr hothers (by rw [hmasters]; simp)]
    exact (filter_candidates_eq_self fun hm => absurd hm hgone).symm

theorem Gains.without (h : Gains m s t) : Without m t s := by
  obtain ⟨hothers, ⟨hmasters, hdead⟩ | ⟨hmasters, hnew⟩⟩ := h
  · rw [Without, filter_candidates_congr hothers (by rw [hmasters])]
    exact (filter_candidates_eq_self fun _ => hdead).symm
  · rw [Without, filter_candidates_congr hothers (by rw [hmasters]; simp)]
    exact (filter_candidates_eq_self fun hm => absurd hm hnew).symm

end Select

/-- A master of the default group whose address is its own is lost by `del`, and nothing else is. -/
theorem Inv.loses_del {s : Upstream} (h : Inv s) {address : Bytes} {m : Nat}
    (hmap : s.serverMap address = [m]) (hdefault : (s.addresses m).params.groupId = -1) :
    Loses m s (s.del address).2 := by
  have hown := (h.mem_serverMap address m).1 (by simp [hmap])
  obtain ⟨id, hid⟩ := Option.ne_none_iff_exists'.1 hown.1
  have hminus : id = -1 := by rw [← h.attached m id hid, hdefault]
  have hleft : (s.del address).2.addresses = (leaveGroup m s).addresses ∧
      (s.del address).2.group = (leaveGroup m s).group := by
    constructor <;> simp only [Upstream.del, hmap, List.foldl_cons, List.foldl_nil]
  refine ⟨fun i hi => ?_, .inr ?_⟩
  · have hsame : (s.del address).2.addresses i = s.addresses i := by
      rw [hleft.1, leaveGroup_addresses, if_neg hi]
    refine ⟨by rw [hsame], ?_⟩
    simp only [isAliveOrGroupAlive, hsame, hleft.2]
    by_cases hgroup : 0 ≤ (s.addresses i).params.groupId
    · rw [leaveGroup_eq hid, restate_group_of_ne (by omega)]
    · simp [hgroup]
  · apply List.filter_congr
    intro i hi
    obtain ⟨hattached, -⟩ := (h.mem_allMasters i).1 hi
    have hmem := h.mem_serverMap address i
    rw [hmap, List.mem_singleton] at hmem
    simp only [hmem, hattached, true_and, ne_eq, not_false_eq_true]

/-- A new master of the default group is gained by `add`, and nothing else is. -/
theorem Inv.gains_add {s : Upstream} (h : Inv s) (address : Bytes) {params : AddressParams}
    (hashes : List Nat) (hmaster : params.serverType = .master) (hdefault : params.groupId < 0) :
    Gains s.count s (s.add address params hashes) := by
  have hid : (newAddress address params hashes).params.groupId = -1 := if_pos hdefault
  have hmasters : (s.add address params hashes).masters = s.masters ++ [s.count] := by
    rw [add_eq, restate_masters, enrolled_eq]
    exact if_pos hmaster
  refine ⟨fun i hi => ?_, .inr ⟨hmasters, ?_⟩⟩
  · have hsame : (s.add address params hashes).addresses i = s.addresses i := by
      rw [add_addresses, if_neg hi]
    refine ⟨by rw [hsame], ?_⟩
    simp only [isAliveOrGroupAlive, hsame]
    by_cases hgroup : 0 ≤ (s.addresses i).params.groupId
    · rw [add_eq, restate_group_of_ne (by omega), h.housed.enrolled_group]
    · simp [hgroup]
  · rw [h.mem_allMasters, (h.fresh s.count le_rfl).1]
    simp

/-- The choice before the group of the master is asked: none if nobody is looked at, else a master with a
nearest node. A master that goes takes only its own hashes away, and one that comes takes all hashes that
move. -/
theorem consistentHash_nearest (s : Upstream) (hs : Hashed s) (hash : Nat) (hhash : hash < 2 ^ 32) :
    (consistentHashSelect hash s = none ↔ ∀ i ∈ s.masters, s.isAliveOrGroupAlive i = false) ∧
    (∀ i, consistentHashSelect hash s = some i → IsNearest s hash i) ∧
    (∀ m t, Hashed t → Loses m s t → consistentHashSelect hash s ≠ some m →
      consistentHashSelect hash t = consistentHashSelect hash s) ∧
    (∀ m t, Hashed t → Gains m s t →
      consistentHashSelect hash t = consistentHashSelect hash s ∨
        consistentHashSelect hash t = some m) := by
  refine ⟨consistentHashSelect_eq_none_iff hs hhash,
    fun i hi => nearest_of_consistentHashSelect hs hhash hi, ?_, ?_⟩
  · intro m t ht hloses hother
    exact consistentHashSelect_without hs ht hhash hloses.without hother
  · intro m t ht hgains
    by_cases hm : consistentHashSelect hash t = some m
    · exact .inr hm
    · exact .inl (consistentHashSelect_without ht hs hhash hgains.without hm).symm

def oneHashed : List Op := [.add [1] ⟨1, 1, .master, -1⟩ (List.replicate virtualGroupSize 100)]

def twoHashed : List Op :=
  oneHashed ++ [.add [2] ⟨1, 1, .master, -1⟩ (List.replicate virtualGroupSize (2 ^ 32 - 1))]

theorem consistentHash_nearest_twoHashed :
    consistentHashSelect 0 (run emptyUpstream twoHashed) = some 1 ∧
      consistentHashSelect 90 ((run emptyUpstream twoHashed).del [2]).2 = some 0 ∧
      consistentHashSelect 90 (run emptyUpstream twoHashed) = some 0 := by
  have hone : Inv (run emptyUpstream oneHashed) := inv_emptyUpstream.run ⟨trivial, trivial⟩
  have hinv : Inv (run emptyUpstream twoHashed) :=
    inv_emptyUpstream.run ⟨trivial, trivial, trivial⟩
  have hs : Hashed (run emptyUpstream twoHashed) := by
    unfold Hashed
    decide +kernel
  have ht : Hashed ((run emptyUpstream twoHashed).del [2]).2 := by
    unfold Hashed
    decide +kernel
  have hbefore : Hashed (run emptyUpstream oneHashed) := by
    unfold Hashed
    decide +kernel
  have hlaw := consistentHash_nearest (run emptyUpstream twoHashed) hs 90 (by decide)
  have hloses : Loses 1 (run emptyUpstream twoHashed) ((run emptyUpstream twoHashed).del [2]).2 :=
    hinv.loses_del (by decide) (by decide)
  have hgains : Gains 1 (run emptyUpstream oneHashed) (run emptyUpstream twoHashed) := by
    have hcount : (run emptyUpstream oneHashed).count = 1 := by decide
    have hmaster : (⟨1, 1, .master, -1⟩ : AddressParams).serverType = .master := rfl
    have hadded := hone.gains_add [2] (List.replicate virtualGroupSize (2 ^ 32 - 1)) hmaster (by decide)
    rw [hcount] at hadded
    exact hadded
  refine ⟨by decide +kernel, ?_, ?_⟩
  · rw [hlaw.2.2.1 1 _ ht hloses (by decide +kernel)]
    decide +kernel
  · have hmoves := (consistentHash_nearest (run emptyUpstream oneHashed) hbefore 90 (by decide)).2.2.2
    rcases hmoves 1 _ hs hgains with hsame | hnew
    · rw [hsame]
      decide +kernel
    · exact absurd hnew (by decide +kernel)

end WorkflowModel.Manager.Upstream
