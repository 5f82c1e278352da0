import WorkflowModel.Manager.Router
import WorkflowModel.Proof.SchedulerRuns
import WorkflowModel.Lib.ListSet

/-!
# The targets of a router

A target of the router is in the group or it has a node in the breaker list, from which it comes back. The
list may have more than one node of a target, and nodes of targets that are back already; such a node does
nothing when its time is over.
-/

namespace WorkflowModel.Kernel.CommScheduler

open WorkflowModel

namespace Scheduler

/-- The groups have the same members, and nobody has begun or ceased to wait for a target. -/
structure SameMembership (s s' : Scheduler) : Prop where
  group : ∀ t, (s'.targets t).group = (s.targets t).group
  waitCnt : ∀ t, (s'.targets t).waitCnt = (s.targets t).waitCnt
  heapSize : ∀ g, (s'.groups g).heapSize = (s.groups g).heapSize

variable {s s' s'' : Scheduler} {g t : Nat}

theorem SameMembership.refl (s : Scheduler) : SameMembership s s :=
  ⟨fun _ => rfl, fun _ => rfl, fun _ => rfl⟩

theorem SameMembership.trans (h : SameMembership s s') (h' : SameMembership s' s'') :
    SameMembership s s'' :=
  ⟨fun t => (h'.group t).trans (h.group t), fun t => (h'.waitCnt t).trans (h.waitCnt t),
    fun g => (h'.heapSize g).trans (h.heapSize g)⟩

theorem sameMembership_setTarget {target : SchedTarget} (hgroup : target.group = (s.targets t).group)
    (hwait : target.waitCnt = (s.targets t).waitCnt) : SameMembership s (s.setTarget t target) := by
  refine ⟨fun t' => ?_, fun t' => ?_, fun _ => rfl⟩
  · by_cases heq : t' = t
    · rw [heq, setTarget_targets, Function.update_self, hgroup]
    · rw [setTarget_targets, Function.update_of_ne heq]
  · by_cases heq : t' = t
    · rw [heq, setTarget_targets, Function.update_self, hwait]
    · rw [setTarget_targets, Function.update_of_ne heq]

theorem sameMembership_setGroup {group : SchedGroup} (hsize : group.heapSize = (s.groups g).heapSize) :
    SameMembership s (s.setGroup g group) := by
  refine ⟨fun _ => rfl, fun _ => rfl, fun g' => ?_⟩
  by_cases heq : g' = g
  · rw [heq, setGroup_groups, Function.update_self, hsize]
  · rw [setGroup_groups, Function.update_of_ne heq]

theorem sameMembership_setSlots (s : Scheduler) (g : Nat) (σ : BinaryHeap.Slots Nat) :
    SameMembership s (s.setSlots g σ) := by
  refine ⟨fun _ => rfl, fun _ => rfl, fun g' => ?_⟩
  by_cases heq : g' = g
  · rw [heq, setSlots_groups, Function.update_self]
  · rw [setSlots_groups, Function.update_of_ne heq]

theorem sameMembership_heapify (s : Scheduler) (g top : Nat) : SameMembership s (s.heapify g top) :=
  sameMembership_setSlots s g _

theorem sameMembership_heapAdjust (s : Scheduler) (g index : Nat) :
    SameMembership s (s.heapAdjust g index) :=
  sameMembership_setSlots s g _

theorem sameMembership_groupTake (s : Scheduler) (g : Nat) : SameMembership s (s.groupTake g) := by
  unfold groupTake
  dsimp only
  refine .trans (sameMembership_setTarget ?_ ?_)
    (.trans (sameMembership_setGroup ?_) (sameMembership_heapify _ g 0))
  · rfl
  · rfl
  · rfl

theorem sameMembership_release (s : Scheduler) (t pick : Nat) :
    SameMembership s (s.release t pick) := by
  have hwait : (released pick (s.targets t)).waitCnt = (s.targets t).waitCnt := by
    rw [released]
  cases hgroup : (s.targets t).group with
  | none =>
      rw [release_of_none hgroup]
      exact sameMembership_setTarget (released_group pick _) hwait
  | some g =>
      rw [release_of_some hgroup]
      exact .trans (sameMembership_setTarget (released_group pick _) hwait)
        (.trans (sameMembership_setGroup (releasedGroup_heapSize pick _ _))
          (sameMembership_heapAdjust _ g _))

theorem sameMembership_groupAcquire (s : Scheduler) (g : Nat) (waitTimeout : Int) :
    SameMembership s (s.groupAcquire g waitTimeout).1 := by
  obtain ⟨-, hreply | ⟨timed, hreply⟩⟩ | ⟨-, hreply⟩ := groupAcquire_cases s g waitTimeout
  · rw [hreply]
    exact .refl s
  · rw [hreply]
    exact sameMembership_setGroup rfl
  · rw [hreply]
    exact sameMembership_groupTake s g

theorem sameMembership_groupResume (s : Scheduler) (g i : Nat) :
    SameMembership s (s.groupResume g i).1 := by
  have hleave : SameMembership s (s.groupLeave g i) := sameMembership_setGroup rfl
  obtain hreply | ⟨w, -, -, ⟨-, hreply | hreply⟩ | ⟨-, hreply⟩⟩ := groupResume_cases s g i
  · rw [hreply]
    exact .refl s
  · rw [hreply]
    exact hleave
  · rw [hreply]
    exact hleave.trans (sameMembership_setGroup rfl)
  · rw [hreply]
    exact hleave.trans (sameMembership_groupTake _ g)

theorem add_done_iff {pick : Nat} :
    (s.add g t true pick).2 = .done ↔ (s.targets t).group = none ∧ (s.targets t).waitCnt = 0 := by
  constructor
  · intro hdone
    exact ⟨(add_eq hdone).1, (add_eq hdone).2.1⟩
  · intro hfree
    rw [add, if_pos hfree]
    simp only [heapInsert, Bool.true_eq_false, and_false, if_false]
    split_ifs <;> rfl

theorem regroup_heapSize (membership : Option Nat) (group : SchedGroup) (σ : BinaryHeap.Slots Nat) :
    ((s.regroup g t membership group σ).groups g).heapSize = group.heapSize := by
  unfold regroup
  dsimp only
  rw [Function.update_self]

end Scheduler

end WorkflowModel.Kernel.CommScheduler

namespace WorkflowModel.Manager.Route

open WorkflowModel Kernel.CommScheduler Scheduler

variable {w w' w'' : World} {t pick : Nat} {now nbreak : Int}

def World.inGroup (w : World) (t : Nat) : Bool :=
  (w.comm.sched.targets t).group = some w.router.group

def World.present (w : World) : Nat := w.router.targets.countP w.inGroup

/-- No target is lost: the counters are right, and a target that is out of the group comes back when the
time of its node is over. -/
structure NoneLost (w : World) : Prop where
  nleft : w.router.nleft = w.present
  heapSize : (w.comm.sched.groups w.router.group).heapSize = w.present
  nleft_pos : 1 ≤ w.router.nleft
  nbreak : w.router.nbreak = w.router.breakerList.length
  comesBack : ∀ t ∈ w.router.targets, w.inGroup t = false →
    ∃ node ∈ w.router.breakerList, node.target = t ∧
      ∀ now pick, node.timeout ≤ now → (checkBreaker now w.router.nbreak pick w).inGroup t = true

def Op.Reports (targets : List Nat) : Op → Prop
  | .notifyUnavailable t _ => t ∈ targets
  | .notifyAvailable t _ _ => t ∈ targets
  | _ => True

structure Tracked (w : World) : Prop where
  nodup : w.router.targets.Nodup
  free : ∀ t ∈ w.router.targets, w.inGroup t = false → (w.comm.sched.targets t).group = none
  waitCnt : ∀ t ∈ w.router.targets, (w.comm.sched.targets t).waitCnt = 0
  nodes : ∀ node ∈ w.router.breakerList, node.target ∈ w.router.targets
  nleft : w.router.nleft = w.present
  heapSize : (w.comm.sched.groups w.router.group).heapSize = w.present
  nbreak : w.router.nbreak = w.router.breakerList.length
  listed : ∀ t ∈ w.router.targets, w.inGroup t = false → ∃ node ∈ w.router.breakerList, node.target = t

/-- The router after a step: the targets are the same. -/
structure SameTargets (w w' : World) : Prop where
  group : w'.router.group = w.router.group
  targets : w'.router.targets = w.router.targets

theorem SameTargets.trans (h : SameTargets w w') (h' : SameTargets w' w'') : SameTargets w w'' :=
  ⟨h'.group.trans h.group, h'.targets.trans h.targets⟩

structure Grows (w w' : World) : Prop extends SameTargets w w' where
  inGroup : ∀ t, w.inGroup t = true → w'.inGroup t = true
  nleft : w.router.nleft ≤ w'.router.nleft

theorem Grows.refl (w : World) : Grows w w := ⟨⟨rfl, rfl⟩, fun _ h => h, le_rfl⟩

theorem Grows.trans (h : Grows w w') (h' : Grows w' w'') : Grows w w'' :=
  ⟨h.toSameTargets.trans h'.toSameTargets, fun t ht => h'.inGroup t (h.inGroup t ht),
    h.nleft.trans h'.nleft⟩

theorem inGroup_iff : w.inGroup t = true ↔ (w.comm.sched.targets t).group = some w.router.group :=
  decide_eq_true_iff

theorem not_inGroup_iff : w.inGroup t = false ↔ (w.comm.sched.targets t).group ≠ some w.router.group :=
  decide_eq_false_iff_not

theorem add_of_inGroup (h : w.inGroup t = true) (pick : Nat) : w.add t pick = w := by
  rw [inGroup_iff] at h
  have hdone : (w.comm.sched.add w.router.group t true pick).2 ≠ .done := by
    rw [Ne, add_done_iff, h]
    simp
  rw [World.add]
  dsimp only
  rw [if_neg hdone, add_of_ne_done hdone]

/-- `w'` is `w` except that the target `t` has joined or left the group. -/
structure Switches (w w' : World) (t : Nat) (membership : Option Nat) : Prop extends SameTargets w w' where
  self : (w'.comm.sched.targets t).group = membership
  others : ∀ t', t' ≠ t → (w'.comm.sched.targets t').group = (w.comm.sched.targets t').group
  waitCnt : ∀ t', (w'.comm.sched.targets t').waitCnt = (w.comm.sched.targets t').waitCnt

theorem Switches.inGroup_of_ne {membership : Option Nat} (h : Switches w w' t membership) {t' : Nat}
    (hne : t' ≠ t) : w'.inGroup t' = w.inGroup t' := by
  rw [World.inGroup, World.inGroup, h.others t' hne, h.group]

theorem Switches.present_joined (h : Switches w w' t (some w.router.group))
    (hnodup : w.router.targets.Nodup) (ht : t ∈ w.router.targets) (hout : w.inGroup t = false) :
    w'.present = w.present + 1 := by
  rw [World.present, h.targets]
  refine ListSet.countP_add_one hnodup ht hout ?_ (fun t' hne => h.inGroup_of_ne hne)
  rw [inGroup_iff, h.self, h.group]

theorem Switches.present_left (h : Switches w w' t none) (hnodup : w.router.targets.Nodup)
    (ht : t ∈ w.router.targets) (hin : w.inGroup t = true) : w.present = w'.present + 1 := by
  rw [World.present, World.present, h.targets]
  refine ListSet.countP_add_one hnodup ht ?_ hin (fun t' hne => (h.inGroup_of_ne hne).symm)
  rw [not_inGroup_iff, h.self]
  exact nofun

theorem add_switches {pick : Nat} (hdone : (w.comm.sched.add w.router.group t true pick).2 = .done) :
    Switches w (w.add t pick) t (some w.router.group) ∧
      (w.add t pick).router = { w.router with nleft := w.router.nleft + 1 } ∧
      ((w.add t pick).comm.sched.groups w.router.group).heapSize =
        (w.comm.sched.groups w.router.group).heapSize + 1 := by
  obtain ⟨-, -, hsched⟩ := add_eq hdone
  have hadd : w.add t pick = {
      router := { w.router with nleft := w.router.nleft + 1 }
      comm := { w.comm with sched := (w.comm.sched.add w.router.group t true pick).1 } } := by
    rw [World.add]
    dsimp only
    rw [if_pos hdone]
  rw [hadd, hsched]
  refine ⟨⟨⟨rfl, rfl⟩, ?_, ?_, fun _ => rfl⟩, rfl, ?_⟩
  · exact if_pos rfl
  · intro t' hne
    exact if_neg hne
  · exact regroup_heapSize _ _ _

/-- A target that is out of the group comes back. -/
theorem Tracked.add_free (hw : Tracked w) (ht : t ∈ w.router.targets) (hout : w.inGroup t = false)
    (pick : Nat) : Tracked (w.add t pick) ∧ Grows w (w.add t pick) ∧ (w.add t pick).inGroup t = true := by
  have hdone : (w.comm.sched.add w.router.group t true pick).2 = .done :=
    add_done_iff.mpr ⟨hw.free t ht hout, hw.waitCnt t ht⟩
  obtain ⟨hswitch, hrouter, hsize⟩ := add_switches hdone
  have hpresent := hswitch.present_joined hw.nodup ht hout
  have hin : (w.add t pick).inGroup t = true := by
    rw [inGroup_iff, hswitch.self, hswitch.group]
  have hstay : ∀ t', w.inGroup t' = true → (w.add t pick).inGroup t' = true := by
    intro t' h
    by_cases heq : t' = t
    · rw [heq, hin]
    · rw [hswitch.inGroup_of_ne heq, h]
  have hstill : ∀ t', (w.add t pick).inGroup t' = false → t' ≠ t ∧ w.inGroup t' = false := by
    intro t' h
    refine ⟨?_, ?_⟩
    · rintro rfl
      rw [hin] at h
      cases h
    · by_contra hnot
      rw [hstay t' (by simpa using hnot)] at h
      cases h
  refine ⟨⟨?_, ?_, ?_, ?_, ?_, ?_, ?_, ?_⟩, ⟨hswitch.toSameTargets, hstay, ?_⟩, hin⟩
  · rw [hswitch.targets]
    exact hw.nodup
  · intro t' hmem h
    rw [hswitch.targets] at hmem
    obtain ⟨hne, hout'⟩ := hstill t' h
    rw [hswitch.others t' hne]
    exact hw.free t' hmem hout'
  · intro t' hmem
    rw [hswitch.targets] at hmem
    rw [hswitch.waitCnt]
    exact hw.waitCnt t' hmem
  · rw [hrouter]
    exact hw.nodes
  · rw [hpresent, hrouter, Nat.cast_add, ← hw.nleft]
    rfl
  · rw [hpresent, hswitch.group, hsize, hw.heapSize]
  · rw [hrouter]
    exact hw.nbreak
  · intro t' hmem h
    rw [hswitch.targets] at hmem
    rw [hrouter]
    exact hw.listed t' hmem (hstill t' h).2
  · rw [hrouter]
    exact Int.le_add_one le_rfl

theorem Tracked.add (hw : Tracked w) (ht : t ∈ w.router.targets) (pick : Nat) :
    Tracked (w.add t pick) ∧ Grows w (w.add t pick) ∧ (w.add t pick).inGroup t = true := by
  cases hin : w.inGroup t with
  | true =>
      rw [add_of_inGroup hin]
      exact ⟨hw, .refl w, hin⟩
  | false => exact hw.add_free ht hin pick

/-- A node may go when its target is in the group. -/
theorem Tracked.dropNode {node : BreakerNode} {kept rest : List BreakerNode} (hw : Tracked w)
    (hlist : w.router.breakerList = kept ++ node :: rest) (hin : w.inGroup node.target = true) :
    Tracked (w.dropNode (kept ++ rest)) := by
  refine ⟨hw.nodup, hw.free, hw.waitCnt, ?_, hw.nleft, hw.heapSize, ?_, ?_⟩
  · intro node' hnode
    apply hw.nodes
    rw [hlist, List.mem_append, List.mem_cons]
    exact (List.mem_append.mp hnode).imp_right Or.inr
  · have hlength := congrArg List.length hlist
    rw [List.length_append, List.length_cons] at hlength
    change w.router.nbreak - 1 = (kept ++ rest).length
    rw [hw.nbreak, hlength, List.length_append]
    omega
  · intro t hmem hout
    obtain ⟨node', hnode, htarget⟩ := hw.listed t hmem hout
    refine ⟨node', ?_, htarget⟩
    rw [hlist, List.mem_append, List.mem_cons] at hnode
    rcases hnode with hkept | rfl | hrest
    · exact List.mem_append_left rest hkept
    · rw [htarget] at hin
      exact absurd (hin.symm.trans hout) (by decide)
    · exact List.mem_append_right kept hrest

theorem grows_dropNode (w : World) (nodes : List BreakerNode) : Grows w (w.dropNode nodes) :=
  ⟨⟨rfl, rfl⟩, fun _ h => h, le_rfl⟩

/-- The loop puts every target whose time is over back. -/
theorem Tracked.checkNodes (now : Int) (pick : Nat → Nat) :
    ∀ (nodes kept : List BreakerNode) {w : World}, Tracked w → w.router.breakerList = kept ++ nodes →
      Tracked (checkNodes now pick kept nodes w) ∧ Grows w (checkNodes now pick kept nodes w) ∧
        ∀ node ∈ nodes, node.timeout ≤ now →
          (checkNodes now pick kept nodes w).inGroup node.target = true := by
  intro nodes
  induction nodes with
  | nil =>
      intro kept w hw _
      exact ⟨hw, .refl w, by simp⟩
  | cons node rest ih =>
      intro kept w hw hlist
      have hmem : node.target ∈ w.router.targets := by
        apply hw.nodes
        rw [hlist]
        simp
      by_cases hover : node.timeout ≤ now
      · obtain ⟨hadded, hgrows, hin⟩ := hw.add hmem (pick node.target)
        have hsame : (w.add node.target (pick node.target)).router.breakerList = kept ++ node :: rest :=
          hlist
        have hdropped := hadded.dropNode hsame hin
        obtain ⟨hafter, hgrows', hback⟩ := ih kept hdropped rfl
        rw [Route.checkNodes, if_pos hover]
        refine ⟨hafter, hgrows.trans ((grows_dropNode _ _).trans hgrows'), ?_⟩
        intro node' hnode hover'
        rcases List.mem_cons.mp hnode with rfl | hrest
        · exact hgrows'.inGroup _ hin
        · exact hback node' hrest hover'
      · obtain ⟨hafter, hgrows', hback⟩ := ih (kept ++ [node]) hw (by rw [hlist]; simp)
        rw [Route.checkNodes, if_neg hover]
        refine ⟨hafter, hgrows', ?_⟩
        intro node' hnode hover'
        rcases List.mem_cons.mp hnode with rfl | hrest
        · exact absurd hover' hover
        · exact hback node' hrest hover'

theorem Tracked.checkBreaker (hw : Tracked w) (now nbreak : Int) (pick : Nat → Nat) :
    Tracked (checkBreaker now nbreak pick w) ∧ Grows w (checkBreaker now nbreak pick w) := by
  unfold Route.checkBreaker
  split_ifs with hnothing
  · exact ⟨hw, .refl w⟩
  · obtain ⟨hafter, hgrows, -⟩ := Tracked.checkNodes now pick w.router.breakerList [] hw rfl
    exact ⟨hafter, hgrows⟩

theorem Tracked.notifyAvailable (hw : Tracked w) (ht : t ∈ w.router.targets) (nbreak : Int) (pick : Nat) :
    Tracked (notifyAvailable t nbreak pick w) ∧ Grows w (notifyAvailable t nbreak pick w) := by
  unfold Route.notifyAvailable
  split_ifs with hnothing
  · exact ⟨hw, .refl w⟩
  · obtain ⟨hafter, hgrows, -⟩ := hw.add ht pick
    exact ⟨hafter, hgrows⟩

def Router.broken (t : Nat) (now : Int) (r : Router) : Router :=
  { r with
    breakerList := r.breakerList ++ [{ target := t, timeout := now + mttrSecond }]
    nbreak := r.nbreak + 1
    nleft := r.nleft - 1 }

theorem Tracked.broken (hw : Tracked w) (ht : t ∈ w.router.targets) (hin : w.inGroup t = true)
    (hswitch : Switches w w' t none) (hrouter : w'.router = w.router.broken t now)
    (hsize : (w'.comm.sched.groups w.router.group).heapSize =
      (w.comm.sched.groups w.router.group).heapSize - 1) : Tracked w' := by
  have hpresent := hswitch.present_left hw.nodup ht hin
  refine ⟨?_, ?_, ?_, ?_, ?_, ?_, ?_, ?_⟩
  · rw [hswitch.targets]
    exact hw.nodup
  · intro t' hmem h
    rw [hswitch.targets] at hmem
    by_cases heq : t' = t
    · rw [heq, hswitch.self]
    · rw [hswitch.others t' heq]
      rw [hswitch.inGroup_of_ne heq] at h
      exact hw.free t' hmem h
  · intro t' hmem
    rw [hswitch.targets] at hmem
    rw [hswitch.waitCnt]
    exact hw.waitCnt t' hmem
  · rw [hrouter]
    intro node hnode
    rcases List.mem_append.mp hnode with hold | hnew
    · exact hw.nodes node hold
    · rw [List.mem_singleton.mp hnew]
      exact ht
  · rw [hrouter]
    change w.router.nleft - 1 = _
    rw [hw.nleft, hpresent]
    simp
  · rw [hswitch.group, hsize, hw.heapSize, hpresent, Nat.add_sub_cancel]
  · rw [hrouter]
    change w.router.nbreak + 1 = _
    rw [hw.nbreak, Router.broken, List.length_append, List.length_singleton, Nat.cast_add]
    rfl
  · intro t' hmem h
    rw [hswitch.targets] at hmem
    rw [hrouter]
    by_cases heq : t' = t
    · exact ⟨_, List.mem_append_right _ (List.mem_singleton_self _), heq.symm⟩
    · rw [hswitch.inGroup_of_ne heq] at h
      obtain ⟨node, hnode, htarget⟩ := hw.listed t' hmem h
      exact ⟨node, List.mem_append_left _ hnode, htarget⟩

/-- The last target is never taken out, and one that is gets a node. -/
theorem Tracked.notifyUnavailable (hw : Tracked w) (ht : t ∈ w.router.targets) (hpos : 1 ≤ w.router.nleft)
    (now : Int) :
    Tracked (notifyUnavailable t now w) ∧ SameTargets w (notifyUnavailable t now w) ∧
      1 ≤ (notifyUnavailable t now w).router.nleft := by
  unfold Route.notifyUnavailable
  split_ifs with hone hlast
  · exact ⟨hw, ⟨rfl, rfl⟩, hpos⟩
  · exact ⟨hw, ⟨rfl, rfl⟩, hpos⟩
  · dsimp only
    by_cases hdone : (w.comm.sched.remove w.router.group t).2 = .done
    · obtain ⟨hmember, -, hsched⟩ := remove_eq hdone
      rw [if_pos hdone, hsched]
      refine ⟨hw.broken ht (inGroup_iff.mpr hmember) ⟨⟨rfl, rfl⟩, ?_, ?_, fun _ => rfl⟩ rfl ?_,
        ⟨rfl, rfl⟩, ?_⟩
      · exact if_pos rfl
      · intro t' hne
        exact if_neg hne
      · exact regroup_heapSize _ _ _
      · change 1 ≤ w.router.nleft - 1
        omega
    · rw [if_neg hdone, remove_of_ne_done hdone]
      exact ⟨hw, ⟨rfl, rfl⟩, hpos⟩

theorem inGroup_of_same {comm : State} (h : SameMembership w.comm.sched comm.sched) :
    World.inGroup { w with comm := comm } = w.inGroup := by
  funext t
  rw [World.inGroup, World.inGroup, h.group]

theorem Tracked.of_same {comm : State} (hw : Tracked w) (h : SameMembership w.comm.sched comm.sched) :
    Tracked { w with comm := comm } := by
  have hpresent : World.present { w with comm := comm } = w.present := by
    rw [World.present, World.present, inGroup_of_same h]
  refine ⟨hw.nodup, ?_, ?_, hw.nodes, ?_, ?_, hw.nbreak, ?_⟩
  · intro t hmem hout
    rw [inGroup_of_same h] at hout
    exact (h.group t).trans (hw.free t hmem hout)
  · intro t hmem
    exact (h.waitCnt t).trans (hw.waitCnt t hmem)
  · rw [hpresent]
    exact hw.nleft
  · rw [hpresent]
    exact (h.heapSize _).trans hw.heapSize
  · intro t hmem hout
    rw [inGroup_of_same h] at hout
    exact hw.listed t hmem hout

/-- A step leaves the router in order, as long as the report is about one of its targets. -/
theorem Tracked.step (hw : Tracked w) (hpos : 1 ≤ w.router.nleft) {op : Op}
    (hop : op.Reports w.router.targets) :
    Tracked (w.step op) ∧ SameTargets w (w.step op) ∧ 1 ≤ (w.step op).router.nleft := by
  cases op with
  | notifyUnavailable t now => exact hw.notifyUnavailable hop hpos now
  | notifyAvailable t nbreak pick =>
      obtain ⟨hafter, hgrows⟩ := hw.notifyAvailable hop nbreak pick
      exact ⟨hafter, hgrows.toSameTargets, hpos.trans hgrows.nleft⟩
  | checkBreaker now nbreak pick =>
      obtain ⟨hafter, hgrows⟩ := hw.checkBreaker now nbreak pick
      exact ⟨hafter, hgrows.toSameTargets, hpos.trans hgrows.nleft⟩
  | acquire waitTimeout =>
      exact ⟨hw.of_same (sameMembership_groupAcquire _ _ waitTimeout), ⟨rfl, rfl⟩, hpos⟩
  | resume i => exact ⟨hw.of_same (sameMembership_groupResume _ _ i), ⟨rfl, rfl⟩, hpos⟩
  | expire i => exact ⟨hw.of_same (sameMembership_setGroup rfl), ⟨rfl, rfl⟩, hpos⟩
  | release t pick =>
      refine ⟨hw.of_same ?_, ⟨rfl, rfl⟩, hpos⟩
      unfold State.step
      dsimp only
      split_ifs
      · exact sameMembership_release _ t pick
      · exact .refl _

theorem Tracked.run (hw : Tracked w) (hpos : 1 ≤ w.router.nleft) {ops : List Op}
    (hops : ∀ op ∈ ops, op.Reports w.router.targets) :
    Tracked (run ops w) ∧ SameTargets w (run ops w) ∧ 1 ≤ (run ops w).router.nleft := by
  induction ops generalizing w with
  | nil => exact ⟨hw, ⟨rfl, rfl⟩, hpos⟩
  | cons op ops ih =>
      obtain ⟨hafter, hsame, hpos'⟩ := hw.step hpos (hops op List.mem_cons_self)
      have hrest : ∀ op' ∈ ops, op'.Reports (w.step op).router.targets := by
        intro op' hmem
        rw [hsame.targets]
        exact hops op' (List.mem_cons_of_mem op hmem)
      obtain ⟨hend, hsame', hpos''⟩ := ih hafter hpos' hrest
      exact ⟨hend, hsame.trans hsame', hpos''⟩

/-- A router whose targets are all in the group; the next one will have the number `t`. -/
structure Filled (t : Nat) (w : World) : Prop where
  nodup : w.router.targets.Nodup
  lt : ∀ t' ∈ w.router.targets, t' < t
  inGroup : ∀ t' ∈ w.router.targets, w.inGroup t' = true
  waitCnt : ∀ t' ∈ w.router.targets, (w.comm.sched.targets t').waitCnt = 0
  nleft : w.router.nleft = w.router.targets.length
  heapSize : (w.comm.sched.groups w.router.group).heapSize = w.router.targets.length
  breakerList : w.router.breakerList = []
  nbreak : w.router.nbreak = 0

theorem Filled.tracked (h : Filled t w) : Tracked w := by
  have hpresent : w.present = w.router.targets.length := List.countP_eq_length.mpr h.inGroup
  refine ⟨h.nodup, ?_, h.waitCnt, ?_, ?_, ?_, ?_, ?_⟩
  · intro t' hmem hout
    exact absurd ((h.inGroup t' hmem).symm.trans hout) (by decide)
  · rw [h.breakerList]
    exact fun node hnode => absurd hnode List.not_mem_nil
  · rw [hpresent, h.nleft]
  · rw [hpresent, h.heapSize]
  · rw [h.breakerList, h.nbreak]
    rfl
  · intro t' hmem hout
    exact absurd ((h.inGroup t' hmem).symm.trans hout) (by decide)

theorem createTarget_eq {maxConnections : Nat} {created : Bool}
    (h : createTarget maxConnections t created w = some w') :
    maxConnections ≠ 0 ∧ w' = { w with comm := { w.comm with
      sched := w.comm.sched.setTarget t (SchedTarget.fresh maxConnections) } } := by
  unfold createTarget at h
  split_ifs at h
  unfold SchedTarget.init at h
  split_ifs at h with hzero
  cases h
  exact ⟨hzero, rfl⟩

theorem Filled.addTarget (h : Filled t w) (maxConnections : Nat) :
    let made := w.comm.sched.setTarget t (SchedTarget.fresh maxConnections)
    let result := made.add w.router.group t true 0
    Filled (t + 1) {
      router := { w.router with
        targets := w.router.targets ++ [t]
        nleft := w.router.nleft + 1 }
      comm := { w.comm with sched := result.1 } } := by
  intro made result
  have hmade : made.targets t = SchedTarget.fresh maxConnections := Function.update_self ..
  have hdone : result.2 = .done := by
    apply add_done_iff.mpr
    rw [hmade]
    exact ⟨rfl, rfl⟩
  have hsched := (add_eq hdone).2.2
  have hself : (result.1.targets t).group = some w.router.group ∧ (result.1.targets t).waitCnt = 0 := by
    rw [hsched]
    refine ⟨if_pos rfl, ?_⟩
    change (made.targets t).waitCnt = 0
    rw [hmade]
    rfl
  have hother : ∀ t' ∈ w.router.targets,
      (result.1.targets t').group = (w.comm.sched.targets t').group ∧
        (result.1.targets t').waitCnt = (w.comm.sched.targets t').waitCnt := by
    intro t' hmem
    have hne : t' ≠ t := (h.lt t' hmem).ne
    have hkept : made.targets t' = w.comm.sched.targets t' := Function.update_of_ne hne ..
    rw [hsched, ← hkept]
    exact ⟨if_neg hne, rfl⟩
  have hmem : ∀ t', t' ∈ w.router.targets ++ [t] → t' ∈ w.router.targets ∨ t' = t := by
    intro t' hmem
    rwa [List.mem_append, List.mem_singleton] at hmem
  refine ⟨?_, ?_, ?_, ?_, ?_, ?_, h.breakerList, h.nbreak⟩
  · refine List.nodup_append.mpr ⟨h.nodup, List.nodup_singleton t, ?_⟩
    intro t' hold t'' hnew
    rw [List.mem_singleton.mp hnew]
    exact (h.lt t' hold).ne
  · intro t' ht'
    rcases hmem t' ht' with hold | rfl
    · exact Nat.lt_succ_of_lt (h.lt t' hold)
    · exact Nat.lt_succ_self t'
  · intro t' ht'
    rw [inGroup_iff]
    rcases hmem t' ht' with hold | rfl
    · exact (hother t' hold).1.trans (inGroup_iff.mp (h.inGroup t' hold))
    · exact hself.1
  · intro t' ht'
    rcases hmem t' ht' with hold | rfl
    · exact (hother t' hold).2.trans (h.waitCnt t' hold)
    · exact hself.2
  · change w.router.nleft + 1 = (w.router.targets ++ [t]).length
    rw [h.nleft, List.length_append, List.length_singleton, Nat.cast_add]
    rfl
  · change (result.1.groups w.router.group).heapSize = (w.router.targets ++ [t]).length
    rw [hsched, regroup_heapSize, List.length_append, List.length_singleton, ← h.heapSize]
    rfl

theorem Filled.addGroupTargets {maxConnections : Nat} :
    ∀ (addresses : List Bool) {t : Nat} {w w' : World}, Filled t w →
      addGroupTargets maxConnections addresses t w = some w' →
      Filled (t + addresses.length) w' ∧
        w'.router.targets.length = w.router.targets.length + addresses.length := by
  intro addresses
  induction addresses with
  | nil =>
      intro t w w' h heq
      cases heq
      exact ⟨h, rfl⟩
  | cons created rest ih =>
      intro t w w' h heq
      rw [Route.addGroupTargets, Option.bind_eq_bind, Option.bind_eq_some_iff] at heq
      obtain ⟨w₁, hcreate, heq⟩ := heq
      obtain ⟨-, rfl⟩ := createTarget_eq hcreate
      dsimp only at heq
      split_ifs at heq with hdone
      obtain ⟨hfilled, hlength⟩ := ih (h.addTarget maxConnections) heq
      rw [List.length_append, List.length_singleton] at hlength
      rw [List.length_cons, Nat.add_comm rest.length, ← Nat.add_assoc, ← Nat.add_assoc]
      exact ⟨hfilled, hlength⟩

theorem filled_init {maxConnections group first : Nat} {addresses : List Bool} {comm : State}
    (haddresses : 2 ≤ addresses.length)
    (hinit : init maxConnections group first addresses comm = some w) :
    Filled (first + addresses.length) w ∧ w.router.targets.length = addresses.length := by
  match addresses with
  | [] => simp at haddresses
  | [_] => simp at haddresses
  | a :: b :: rest =>
      rw [init] at hinit
      · have hempty : Filled first {
            router := .new group
            comm := { comm with sched := comm.sched.setGroup group SchedGroup.init } } := by
          refine ⟨List.nodup_nil, nofun, nofun, nofun, rfl, ?_, rfl, rfl⟩
          change (Function.update comm.sched.groups group SchedGroup.init group).heapSize = 0
          rw [Function.update_self]
          rfl
        obtain ⟨hfilled, hlength⟩ := Filled.addGroupTargets _ hempty hinit
        exact ⟨hfilled, by rw [hlength, Router.new, List.length_nil, Nat.zero_add]⟩
      · exact nofun
      · exact nofun

theorem Tracked.noneLost (hw : Tracked w) (hpos : 1 ≤ w.router.nleft)
    (htwo : 2 ≤ w.router.targets.length) : NoneLost w := by
  refine ⟨hw.nleft, hw.heapSize, hpos, hw.nbreak, ?_⟩
  intro t hmem hout
  obtain ⟨node, hnode, htarget⟩ := hw.listed t hmem hout
  refine ⟨node, hnode, htarget, ?_⟩
  intro now pick hover
  have hnbreak : w.router.nbreak ≠ 0 := by
    have hlength := List.length_pos_of_mem hnode
    rw [hw.nbreak]
    omega
  have hbusy : ¬ (w.router.targets.length ≤ 1 ∨ w.router.nbreak = 0) := by
    rintro (hone | hnone)
    · omega
    · exact hnbreak hnone
  rw [Route.checkBreaker, if_neg hbusy, ← htarget]
  exact (Tracked.checkNodes now pick w.router.breakerList [] hw rfl).2.2 node hnode hover

/-- Whatever is reported, and whenever the breaker list is checked, no target of a router is lost. -/
theorem noneLost_of_run {maxConnections group first : Nat} {addresses : List Bool} {comm : State}
    (haddresses : 2 ≤ addresses.length)
    (hinit : init maxConnections group first addresses comm = some w) (ops : List Op)
    (hops : ∀ op ∈ ops, op.Reports w.router.targets) : NoneLost (run ops w) := by
  obtain ⟨hfilled, hlength⟩ := filled_init haddresses hinit
  have hpos : 1 ≤ w.router.nleft := by
    rw [hfilled.nleft, hlength]
    omega
  obtain ⟨hend, hsame, hpos'⟩ := hfilled.tracked.run hpos hops
  refine hend.noneLost hpos' ?_
  rw [hsame.targets, hlength]
  exact haddresses

/-- A target that fails twice before its first node is taken from the list. -/
theorem noneLost_failsTwice :
    ∃ w, init 4 0 0 [true, true] (initialState fun _ => ⟨4, by decide⟩) = some w ∧
      NoneLost (run [.notifyUnavailable 1 100, .notifyAvailable 1 1 0, .notifyUnavailable 1 110,
        .acquire 0, .checkBreaker 130 2 fun _ => 0] w) := by
  have htargets : (init 4 0 0 [true, true] (initialState fun _ => ⟨4, by decide⟩)).map
      (fun w => w.router.targets) = some [0, 1] := by decide
  obtain ⟨w, hinit, hw⟩ := Option.map_eq_some_iff.mp htargets
  refine ⟨w, hinit, noneLost_of_run (by decide) hinit _ ?_⟩
  have hmem : 1 ∈ w.router.targets := by
    rw [hw]
    decide
  simp [Op.Reports, hmem]

end WorkflowModel.Manager.Route
