import WorkflowModel.Proof.UpstreamGet

/-!
# Shares of the weighted random choice

The total weight is the sum of the weights of all masters through every `add` and `del`, and all weights
are positive. So the residues of `rand` modulo the total fall into intervals, one for each master and as
long as its weight, and the loop of `get` always ends before the last master is taken for want of another.
-/

namespace WorkflowModel.Manager.Upstream

open Finset

/-- The operation is `add` or `del`. -/
def Op.AddsOrRemoves : Op → Prop
  | .add _ _ _ => True
  | .del _ => True
  | _ => False

theorem noWraps_of_addsOrRemoves {ops : List Op} (hops : ∀ op ∈ ops, op.AddsOrRemoves) (s : Upstream) :
    NoWraps s ops := by
  induction ops generalizing s with
  | nil => trivial
  | cons op rest ih =>
      rw [List.forall_mem_cons] at hops
      refine ⟨?_, ih hops.2 _⟩
      cases op with
      | notifyUnavailable i now => exact hops.1.elim
      | _ => trivial

section Draw

variable {s : Upstream} {head : Nat} {rest : List Nat} {mode : Mode}

theorem Inv.totalWeight_pos (h : Inv s) (hmasters : s.masters = head :: rest) : 0 < s.totalWeight := by
  have hhead : 1 ≤ s.weightOf head := Int.ofNat_le.2 (h.normal head).2.1
  have hrest := Shares.total_nonneg (l := rest) fun j _ => s.weightOf_nonneg j
  have htotal : s.totalWeight = Shares.total s.weightOf s.masters := h.totalWeight_eq
  rw [htotal, hmasters, Shares.total_cons]
  omega

theorem Inv.firstChoice_eq (h : Inv s) (hmasters : s.masters = head :: rest) (hrest : rest ≠ [])
    (hmode : mode.hasSelectCallback = false) (draws : Draws) :
    firstChoice mode draws s head rest
      = (pickAbove s ((draws.first % s.totalWeight.toNat : Nat) : Int) 0 s.masters).getD
          ((head :: rest).getLast (by simp)) := by
  have hpos := h.totalWeight_pos hmasters
  have hdraw : Int.tmod draws.first s.totalWeight = ((draws.first % s.totalWeight.toNat : Nat) : Int) := by
    rw [Int.tmod_eq_emod_of_nonneg (Int.natCast_nonneg _), Int.natCast_emod, Int.toNat_of_nonneg hpos.le]
  unfold firstChoice
  rw [if_neg hrest, hmode, hmasters]
  simp only [Bool.false_eq_true, if_false]
  rw [if_pos hpos, hdraw]

theorem Inv.pickAbove_ne_none (h : Inv s) {x : Nat} (hx : x < s.totalWeight.toNat) :
    pickAbove s x 0 s.masters ≠ none := by
  have htotal : s.totalWeight = Shares.total s.weightOf s.masters := h.totalWeight_eq
  rw [pickAbove_eq_pick]
  exact Shares.pick_ne_none (by omega) (Int.natCast_nonneg _)

end Draw

/-- In every state that `add` and `del` reach, each of at least two masters is the first choice for as many
residues as its weight says, and for every residue the loop finds a master. -/
theorem firstChoice_proportional {ops : List Op} (hops : ∀ op ∈ ops, op.AddsOrRemoves) (mode : Mode)
    (hrandom : mode.isConsistent = false ∧ mode.hasSelectCallback = false) (draws : Draws)
    {head : Nat} {rest : List Nat} (hmasters : (run emptyUpstream ops).masters = head :: rest)
    (htwo : rest ≠ []) :
    let s := run emptyUpstream ops
    let residues := range s.totalWeight.toNat
    (∀ i ∈ s.masters, (residues.filter fun x =>
      firstChoice mode { draws with first := x } s head rest = i).card = (s.addresses i).params.weight) ∧
    (∀ x ∈ residues, pickAbove s x 0 s.masters ≠ none) ∧
    ∀ first, firstChoice mode { draws with first := first } s head rest
      = firstChoice mode { draws with first := first % s.totalWeight.toNat } s head rest := by
  intro s residues
  have h : Inv s := inv_emptyUpstream.run (noWraps_of_addsOrRemoves hops emptyUpstream)
  refine ⟨fun i hi => ?_, fun x hx => h.pickAbove_ne_none (mem_range.1 hx), fun first => ?_⟩
  · have htotal : s.totalWeight = Shares.total s.weightOf s.masters := h.totalWeight_eq
    have hcard := Shares.card_pick h.nodup_allMasters (fun j _ => s.weightOf_nonneg j) hi
    rw [← htotal] at hcard
    have hsame : (residues.filter fun x => firstChoice mode { draws with first := x } s head rest = i)
        = residues.filter fun x : Nat => Shares.pick s.weightOf x 0 s.masters = some i := by
      apply Finset.filter_congr
      intro x hx
      have hlt := mem_range.1 hx
      obtain ⟨j, hj⟩ := Option.ne_none_iff_exists'.1 (h.pickAbove_ne_none hlt)
      rw [h.firstChoice_eq hmasters htwo hrandom.2, Nat.mod_eq_of_lt hlt, ← pickAbove_eq_pick, hj]
      simp
    rw [hsame]
    exact Int.ofNat_inj.1 hcard
  · rw [h.firstChoice_eq hmasters htwo hrandom.2, h.firstChoice_eq hmasters htwo hrandom.2]
    simp only [Nat.mod_mod]

/-- Masters of the weights 5, 2 and 3, the first of them removed together with a slave. -/
def sharedRun : List Op :=
  [.add [1] ⟨1, 5, .master, -1⟩ [], .add [2] ⟨1, 2, .master, 0⟩ [], .add [1] ⟨1, 1, .slave, -1⟩ [],
    .del [1], .add [3] ⟨1, 3, .master, -1⟩ []]

theorem firstChoice_proportional_sharedRun :
    ((range (run emptyUpstream sharedRun).totalWeight.toNat).filter fun x =>
      firstChoice weightedRandom ⟨0, 0, x, 0, 0, noShuffle⟩ (run emptyUpstream sharedRun) 1 [3] = 3).card
      = 3 := by
  have hops : ∀ op ∈ sharedRun, op.AddsOrRemoves := by
    simp [sharedRun, Op.AddsOrRemoves]
  have hshares := (firstChoice_proportional hops weightedRandom ⟨rfl, rfl⟩ ⟨0, 0, 0, 0, 0, noShuffle⟩
    (show (run emptyUpstream sharedRun).masters = 1 :: [3] by decide) (by decide)).1 3 (by decide)
  exact hshares.trans (by decide)

end WorkflowModel.Manager.Upstream
