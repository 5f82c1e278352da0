import WorkflowModel.Proof.SchedulerBalance
import Mathlib.Tactic.NormNum

/-!
# Runs of the scheduler

The groups are balanced in every state of a run whose products and sums stay below `2^64`. What a target has
handed out is what the threads hold, so no target is overloaded. The sums have to be bounded apart from the
products: the members of a group may have so many connections that its own `max_load` wraps around.
-/

namespace WorkflowModel.Kernel.CommScheduler

open WorkflowModel BinaryHeap Finset

namespace Scheduler

variable {s : Scheduler} {g t : Nat}

theorem Balanced.setTarget_waiters (hs : s.Balanced) (waitCnt : Nat) (waiters : List Waiter) :
    (s.setTarget t { s.targets t with waitCnt := waitCnt, waiters := waiters }).Balanced := by
  refine hs.congr (fun _ => ⟨rfl, rfl, rfl, rfl⟩) ?_ ?_
  · intro t'
    by_cases heq : t' = t
    · subst heq
      simp
    · simp [heq]
  · intro t'
    by_cases heq : t' = t
    · subst heq
      simp [SameLoad]
    · simp [SameLoad, heq]

theorem Balanced.setGroup_waiters (hs : s.Balanced) (waitCnt : Nat) (waiters : List Waiter) :
    (s.setGroup g { s.groups g with waitCnt := waitCnt, waiters := waiters }).Balanced := by
  refine hs.congr ?_ (fun _ => rfl) (fun _ => ⟨rfl, rfl, rfl⟩)
  intro g'
  by_cases heq : g' = g
  · subst heq
    simp [SameMembers]
  · simp [SameMembers, heq]

theorem Balanced.targetTake_curLoad (hs : s.Balanced)
    (hlt : (s.targets t).curLoad < (s.targets t).maxLoad) (t' : Nat) :
    ((s.targetTake t).targets t').curLoad
      = if t' = t then (s.targets t).curLoad + 1 else (s.targets t').curLoad := by
  obtain ⟨index, htarget⟩ := exists_targetTake_target s t t'
  rw [htarget, Function.update_apply]
  split
  · exact hs.taken_curLoad hlt
  · rfl

theorem Balanced.release_curLoad {pick : Nat} (hs : s.Balanced) (hpos : 0 < (s.targets t).curLoad)
    (t' : Nat) :
    ((s.release t pick).targets t').curLoad
      = if t' = t then (s.targets t).curLoad - 1 else (s.targets t').curLoad := by
  obtain ⟨index, htarget⟩ := exists_release_target s t pick t'
  rw [htarget, Function.update_apply]
  split
  · rw [← hs.released_curLoad pick hpos]
  · rfl

theorem targetAcquire_cases (s : Scheduler) (t : Nat) (waitTimeout : Int) :
    ((s.targets t).maxLoad ≤ (s.targets t).curLoad
        ∧ (s.targetAcquire t waitTimeout = (s, .errno .eagain)
          ∨ ∃ timed, s.targetAcquire t waitTimeout = (s.targetWait t timed, .waiting)))
      ∨ ((s.targets t).curLoad < (s.targets t).maxLoad
        ∧ s.targetAcquire t waitTimeout = (s.targetTake t, .target t)) := by
  unfold targetAcquire
  split_ifs with hfull hwait
  · exact Or.inl ⟨hfull, Or.inr ⟨_, rfl⟩⟩
  · exact Or.inl ⟨hfull, Or.inl rfl⟩
  · exact Or.inr ⟨not_le.1 hfull, rfl⟩

theorem groupAcquire_cases (s : Scheduler) (g : Nat) (waitTimeout : Int) :
    ((s.groups g).maxLoad ≤ (s.groups g).curLoad
        ∧ (s.groupAcquire g waitTimeout = (s, .errno .eagain)
          ∨ ∃ timed, s.groupAcquire g waitTimeout = (s.groupWait g timed, .waiting)))
      ∨ ((s.groups g).curLoad < (s.groups g).maxLoad
        ∧ s.groupAcquire g waitTimeout = (s.groupTake g, .target ((s.groups g).tgHeap 0))) := by
  unfold groupAcquire
  split_ifs with hfull hwait
  · exact Or.inl ⟨hfull, Or.inr ⟨_, rfl⟩⟩
  · exact Or.inl ⟨hfull, Or.inl rfl⟩
  · exact Or.inr ⟨not_le.1 hfull, rfl⟩

/-- A woken thread that finds no free connection waits again or gives up. -/
theorem targetResume_cases (s : Scheduler) (t i : Nat) :
    s.targetResume t i = (s, .nothing)
      ∨ ∃ w, (s.targets t).waiters[i]? = some w ∧ w.wake ≠ .asleep
        ∧ (((s.targets t).maxLoad ≤ (s.targets t).curLoad
            ∧ (s.targetResume t i = (s.targetLeave t i, .errno .etimedout)
              ∨ s.targetResume t i = ((s.targetLeave t i).targetWait t w.timed, .waiting)))
          ∨ ((s.targets t).curLoad < (s.targets t).maxLoad
            ∧ s.targetResume t i = ((s.targetLeave t i).targetTake t, .target t))) := by
  unfold targetResume
  cases hw : (s.targets t).waiters[i]? with
  | none => exact Or.inl rfl
  | some w =>
      have hload : ((s.targetLeave t i).targets t).curLoad ≥ ((s.targetLeave t i).targets t).maxLoad
          ↔ (s.targets t).maxLoad ≤ (s.targets t).curLoad := by
        simp [targetLeave]
      simp only [hload]
      split_ifs with hasleep hfull hsignal
      · exact Or.inl rfl
      · exact Or.inr ⟨w, rfl, hasleep, Or.inl ⟨hfull, Or.inr rfl⟩⟩
      · exact Or.inr ⟨w, rfl, hasleep, Or.inl ⟨hfull, Or.inl rfl⟩⟩
      · exact Or.inr ⟨w, rfl, hasleep, Or.inr ⟨not_le.1 hfull, rfl⟩⟩

theorem groupResume_cases (s : Scheduler) (g i : Nat) :
    s.groupResume g i = (s, .nothing)
      ∨ ∃ w, (s.groups g).waiters[i]? = some w ∧ w.wake ≠ .asleep
        ∧ (((s.groups g).maxLoad ≤ (s.groups g).curLoad
            ∧ (s.groupResume g i = (s.groupLeave g i, .errno .etimedout)
              ∨ s.groupResume g i = ((s.groupLeave g i).groupWait g w.timed, .waiting)))
          ∨ ((s.groups g).curLoad < (s.groups g).maxLoad
            ∧ s.groupResume g i
              = ((s.groupLeave g i).groupTake g, .target ((s.groups g).tgHeap 0)))) := by
  unfold groupResume
  cases hw : (s.groups g).waiters[i]? with
  | none => exact Or.inl rfl
  | some w =>
      have hload : ((s.groupLeave g i).groups g).curLoad ≥ ((s.groupLeave g i).groups g).maxLoad
          ↔ (s.groups g).maxLoad ≤ (s.groups g).curLoad := by
        simp [groupLeave]
      have htop : ((s.groupLeave g i).groups g).tgHeap = (s.groups g).tgHeap := by
        simp [groupLeave]
      simp only [hload, htop]
      split_ifs with hasleep hfull hsignal
      · exact Or.inl rfl
      · exact Or.inr ⟨w, rfl, hasleep, Or.inl ⟨hfull, Or.inr rfl⟩⟩
      · exact Or.inr ⟨w, rfl, hasleep, Or.inl ⟨hfull, Or.inl rfl⟩⟩
      · exact Or.inr ⟨w, rfl, hasleep, Or.inr ⟨not_le.1 hfull, rfl⟩⟩

theorem add_of_ne_done {realloc : Bool} {pick : Nat} (h : (s.add g t realloc pick).2 ≠ .done) :
    (s.add g t realloc pick).1 = s := by
  unfold add at h ⊢
  split_ifs at h ⊢ with hfree hmember hother
  · cases hinsert : s.heapInsert g t realloc with
    | none => simp
    | some s' =>
        simp only [hinsert] at h
        split_ifs at h <;> simp at h
  · rfl
  · rfl
  · rfl

theorem add_curLoad (realloc : Bool) (pick t' : Nat) :
    ((s.add g t realloc pick).1.targets t').curLoad = (s.targets t').curLoad := by
  by_cases hdone : (s.add g t realloc pick).2 = .done
  · rw [(add_eq hdone).2.2, regroup]
  · rw [add_of_ne_done hdone]

theorem add_groups_of_ne (realloc : Bool) (pick : Nat) {g' : Nat} (h : g' ≠ g) :
    (s.add g t realloc pick).1.groups g' = s.groups g' := by
  by_cases hdone : (s.add g t realloc pick).2 = .done
  · rw [(add_eq hdone).2.2, regroup]
    exact Function.update_of_ne h _ _
  · rw [add_of_ne_done hdone]

theorem remove_of_ne_done (h : (s.remove g t).2 ≠ .done) : (s.remove g t).1 = s := by
  unfold remove at h ⊢
  split_ifs at h ⊢ with hmember hother
  · simp at h
  · rfl
  · rfl

end Scheduler

namespace State

open Scheduler

/-- The groups are balanced, and the load of a target is what is held of it. -/
structure Sound (s : State) : Prop where
  balanced : s.sched.Balanced
  held_eq : ∀ t, s.held t = (s.sched.targets t).curLoad

theorem initial_sound (maxConnections : Nat → MaxConnections) : (initialState maxConnections).Sound := by
  refine ⟨⟨fun t => (maxConnections t).2.1, fun _ => Nat.zero_le _, fun t => (maxConnections t).2.2, ?_⟩,
    fun _ => rfl⟩
  intro g
  refine GroupBalanced.of_lists (M := ∅) ?_ ⟨?_, ?_, ?_, ?_⟩ ?_ ?_ ?_ ?_
  · intro t
    simp [initialState, SchedTarget.fresh]
  all_goals simp [initialState, SchedGroup.init, IsHeap, sizeModulus]

theorem Sound.take {s : State} {t : Nat} (hs : s.Sound)
    (hlt : (s.sched.targets t).curLoad < (s.sched.targets t).maxLoad)
    (hfit : (s.sched.targetTake t).ProductsFit) :
    (grant (s.sched.targetTake t, .target t) s.held).Sound := by
  refine ⟨hs.balanced.targetTake hlt hfit, ?_⟩
  intro t'
  simp only [grant]
  rw [hs.balanced.targetTake_curLoad hlt]
  by_cases heq : t' = t
  · subst heq
    simp [hs.held_eq]
  · simp [heq, hs.held_eq]

theorem Sound.groupTake {s : State} {g : Nat} (hs : s.Sound)
    (hlt : (s.sched.groups g).curLoad < (s.sched.groups g).maxLoad)
    (hfit : (s.sched.groupTake g).ProductsFit) :
    (grant (s.sched.groupTake g, .target ((s.sched.groups g).tgHeap 0)) s.held).Sound := by
  obtain ⟨hgroup, hindex, hfree, -⟩ := hs.balanced.top_free hlt
  rw [groupTake_eq hgroup hindex] at hfit ⊢
  exact hs.take hfree hfit

theorem Sound.setTarget_waiters {s : State} (hs : s.Sound) (t waitCnt : Nat) (waiters : List Waiter) :
    Sound { s with
      sched := s.sched.setTarget t { s.sched.targets t with waitCnt := waitCnt, waiters := waiters } } := by
  refine ⟨hs.balanced.setTarget_waiters waitCnt waiters, ?_⟩
  intro t'
  by_cases heq : t' = t
  · subst heq
    simp [hs.held_eq]
  · simp [heq, hs.held_eq]

theorem Sound.setGroup_waiters {s : State} (hs : s.Sound) (g waitCnt : Nat) (waiters : List Waiter) :
    Sound { s with
      sched := s.sched.setGroup g { s.sched.groups g with waitCnt := waitCnt, waiters := waiters } } :=
  ⟨hs.balanced.setGroup_waiters waitCnt waiters, hs.held_eq⟩

theorem step_sound {s : State} {op : Op} (hs : s.Sound) (hfit : (s.step op).sched.ProductsFit)
    (hsum : (s.step op).sched.SumsFit) : (s.step op).Sound := by
  cases op with
  | targetAcquire t waitTimeout =>
      simp only [step] at hfit ⊢
      obtain ⟨-, heq | ⟨timed, heq⟩⟩ | ⟨hfree, heq⟩ := targetAcquire_cases s.sched t waitTimeout
      · rw [heq]
        exact hs
      · rw [heq]
        exact hs.setTarget_waiters t _ _
      · rw [heq] at hfit ⊢
        exact hs.take hfree hfit
  | targetResume t i =>
      simp only [step] at hfit ⊢
      have hleave := hs.setTarget_waiters t ((s.sched.targets t).waitCnt - 1)
        ((s.sched.targets t).waiters.eraseIdx i)
      obtain heq | ⟨w, hw, -, ⟨-, heq | heq⟩ | ⟨hfree, heq⟩⟩ := targetResume_cases s.sched t i
      · rw [heq]
        exact hs
      · rw [heq]
        exact hleave
      · rw [heq]
        exact hleave.setTarget_waiters t _ _
      · rw [heq] at hfit ⊢
        exact hleave.take (by simpa using hfree) hfit
  | targetExpire t i => exact hs.setTarget_waiters t _ _
  | release t pick =>
      simp only [step] at hfit ⊢
      split_ifs at hfit ⊢ with hheld
      · have hpos : 0 < (s.sched.targets t).curLoad := by
          rw [← hs.held_eq]
          exact hheld
        refine ⟨hs.balanced.release hpos hfit, ?_⟩
        intro t'
        rw [hs.balanced.release_curLoad hpos]
        by_cases heq : t' = t
        · subst heq
          simp [hs.held_eq]
        · simp [heq, hs.held_eq]
      · exact hs
  | groupAcquire g waitTimeout =>
      simp only [step] at hfit ⊢
      obtain ⟨-, heq | ⟨timed, heq⟩⟩ | ⟨hfree, heq⟩ := groupAcquire_cases s.sched g waitTimeout
      · rw [heq]
        exact hs
      · rw [heq]
        exact hs.setGroup_waiters g _ _
      · rw [heq] at hfit ⊢
        exact hs.groupTake hfree hfit
  | groupResume g i =>
      simp only [step] at hfit ⊢
      have hleave := hs.setGroup_waiters g ((s.sched.groups g).waitCnt - 1)
        ((s.sched.groups g).waiters.eraseIdx i)
      obtain heq | ⟨w, hw, -, ⟨-, heq | heq⟩ | ⟨hfree, heq⟩⟩ := groupResume_cases s.sched g i
      · rw [heq]
        exact hs
      · rw [heq]
        exact hleave
      · rw [heq]
        exact hleave.setGroup_waiters g _ _
      · rw [heq] at hfit ⊢
        have htake := hleave.groupTake (g := g) (by simpa using hfree) hfit
        simpa [groupLeave] using htake
  | groupExpire g i => exact hs.setGroup_waiters g _ _
  | add g t realloc pick =>
      simp only [step] at hfit hsum ⊢
      by_cases hdone : (s.sched.add g t realloc pick).2 = .done
      · refine ⟨hs.balanced.add hdone hfit hsum, ?_⟩
        intro t'
        rw [add_curLoad]
        exact hs.held_eq t'
      · rw [add_of_ne_done hdone]
        exact hs
  | remove g t =>
      simp only [step] at hfit ⊢
      by_cases hdone : (s.sched.remove g t).2 = .done
      · refine ⟨hs.balanced.remove hdone hfit, ?_⟩
        intro t'
        rw [(remove_eq hdone).2.2]
        exact hs.held_eq t'
      · rw [remove_of_ne_done hdone]
        exact hs

end State

/-- A step after which the products of `target_cmp` and the sums over the groups are below `2^64`. -/
def LoadsFit (s : State) (op : Op) : Prop :=
  (s.step op).sched.ProductsFit ∧ (s.step op).sched.SumsFit

theorem Reached.sound {allowed : State → Op → Prop} {maxConnections : Nat → MaxConnections} {s : State}
    (hallowed : ∀ s op, allowed s op → LoadsFit s op) (h : Reached allowed maxConnections s) :
    s.Sound := by
  induction h with
  | init => exact State.initial_sound maxConnections
  | step op _ hop ih =>
      obtain ⟨hfit, hsum⟩ := hallowed _ op hop
      exact State.step_sound ih hfit hsum

/-- What a group promises: its heap lists the members in order, its loads are their sums, and it hands out
a connection of a member of least ratio whenever one is free. -/
structure GroupSound (s : Scheduler) (g : Nat) : Prop where
  listed : ∀ i, i < (s.groups g).heapSize → (s.targets ((s.groups g).tgHeap i)).group = some g
    ∧ (s.targets ((s.groups g).tgHeap i)).index = i
  placed : ∀ t, (s.targets t).group = some g → (s.targets t).index < (s.groups g).heapSize
    ∧ (s.groups g).tgHeap (s.targets t).index = t
  ordered : ∀ i, 0 < i → i < (s.groups g).heapSize →
    ratio (s.targets ((s.groups g).tgHeap ((i - 1) / 2))) ≤ ratio (s.targets ((s.groups g).tgHeap i))
  maxLoad_eq : (s.groups g).maxLoad
    = ∑ i ∈ range (s.groups g).heapSize, (s.targets ((s.groups g).tgHeap i)).maxLoad
  curLoad_eq : (s.groups g).curLoad
    = ∑ i ∈ range (s.groups g).heapSize, (s.targets ((s.groups g).tgHeap i)).curLoad
  acquires : (∃ t, (s.groupAcquire g 0).2 = .target t)
    ↔ ∃ t, (s.targets t).group = some g ∧ (s.targets t).curLoad < (s.targets t).maxLoad
  least : ∀ t, (s.groupAcquire g 0).2 = .target t → (s.targets t).group = some g
    ∧ ∀ t', (s.targets t').group = some g → ratio (s.targets t) ≤ ratio (s.targets t')

namespace Scheduler

variable {s : Scheduler} {g : Nat}

theorem groupAcquire_zero_eq_target {t : Nat} : (s.groupAcquire g 0).2 = .target t
    ↔ (s.groups g).curLoad < (s.groups g).maxLoad ∧ (s.groups g).tgHeap 0 = t := by
  by_cases hfull : (s.groups g).curLoad ≥ (s.groups g).maxLoad
  · simp [groupAcquire, hfull]
  · simp [groupAcquire, hfull, not_le.1 hfull]

theorem GroupBalanced.sum_slots (h : s.GroupBalanced g) (f : Nat → Nat) :
    ∑ t ∈ s.members g, f t = ∑ i ∈ range (s.groups g).heapSize, f ((s.groups g).tgHeap i) := by
  rw [members]
  apply sum_image
  intro i hi j hj heq
  exact h.lists.heap_injOn i j (by simpa using hi) (by simpa using hj) heq

theorem Balanced.groupSound (hs : s.Balanced) (g : Nat) : GroupSound s g := by
  have h := hs.group g
  refine ⟨?_, ?_, h.isHeap, ?_, ?_, ?_, ?_⟩
  · intro i hi
    exact ⟨(h.mem_members _).1 (h.lists.mem i hi), h.lists.index_heap i hi⟩
  · intro t ht
    have hmem := (h.mem_members t).2 ht
    exact ⟨h.lists.index_lt t hmem, h.lists.heap_index t hmem⟩
  · rw [h.maxLoad_eq, h.sum_slots]
  · rw [h.curLoad_eq, h.sum_slots]
  · rw [← hs.curLoad_lt_iff]
    simp only [groupAcquire_zero_eq_target]
    simp
  · intro t ht
    obtain ⟨hlt, rfl⟩ := groupAcquire_zero_eq_target.1 ht
    obtain ⟨hgroup, -, -, hleast⟩ := hs.top_free hlt
    exact ⟨hgroup, hleast⟩

end Scheduler

/-- In every state of a run whose products and sums fit, every group keeps its promise and no target has
handed out more connections than it has. -/
theorem groupSound_of_reached {maxConnections : Nat → MaxConnections} {s : State}
    (h : Reached LoadsFit maxConnections s) :
    (∀ g, GroupSound s.sched g) ∧ ∀ t, (s.sched.targets t).curLoad ≤ (s.sched.targets t).maxLoad := by
  have hsound := h.sound fun _ _ hop => hop
  exact ⟨hsound.balanced.groupSound, hsound.balanced.curLoad_le⟩

/-- A target that admits `n` connections joins the group 0. -/
def loneState (n : MaxConnections) : State := (initialState fun _ => n).step (.add 0 0 true 0)

def pairState (n : MaxConnections) : State := (loneState n).step (.add 0 1 true 0)

theorem productsFit_of_idle {s : Scheduler} (h : ∀ t, (s.targets t).curLoad = 0) : s.ProductsFit := by
  intro g t t' _ _
  rw [h t, Nat.zero_mul]
  exact Nat.two_pow_pos 64

theorem productsFit_loneState (n : MaxConnections) : (loneState n).sched.ProductsFit := by
  apply productsFit_of_idle
  intro t
  simp only [loneState, State.step, Scheduler.add_curLoad]
  rfl

theorem productsFit_pairState (n : MaxConnections) : (pairState n).sched.ProductsFit := by
  apply productsFit_of_idle
  intro t
  simp only [pairState, loneState, State.step, Scheduler.add_curLoad]
  rfl

theorem sumsFit_of_group_zero {s : Scheduler} (hempty : ∀ g, g ≠ 0 → (s.groups g).heapSize = 0)
    (hsum : ∑ t ∈ s.members 0, (s.targets t).maxLoad < sizeModulus) : s.SumsFit := by
  intro g
  by_cases hg : g = 0
  · subst hg
    exact hsum
  · simp [Scheduler.members, hempty g hg, sizeModulus]

theorem heapSize_loneState (n : MaxConnections) {g : Nat} (h : g ≠ 0) :
    ((loneState n).sched.groups g).heapSize = 0 := by
  simp only [loneState, State.step, Scheduler.add_groups_of_ne _ _ h]
  rfl

theorem heapSize_pairState (n : MaxConnections) {g : Nat} (h : g ≠ 0) :
    ((pairState n).sched.groups g).heapSize = 0 := by
  simp only [pairState, State.step, Scheduler.add_groups_of_ne _ _ h]
  exact heapSize_loneState n h

theorem groupSound_pairState :
    (∀ g, GroupSound (pairState ⟨1, by decide⟩).sched g)
      ∧ ∀ t, ((pairState ⟨1, by decide⟩).sched.targets t).curLoad
        ≤ ((pairState ⟨1, by decide⟩).sched.targets t).maxLoad := by
  have hlone : LoadsFit (initialState fun _ => ⟨1, by decide⟩) (.add 0 0 true 0) :=
    ⟨productsFit_loneState _, sumsFit_of_group_zero (fun _ h => heapSize_loneState _ h) (by decide)⟩
  have hpair : LoadsFit (loneState ⟨1, by decide⟩) (.add 0 1 true 0) :=
    ⟨productsFit_pairState _, sumsFit_of_group_zero (fun _ h => heapSize_pairState _ h) (by decide)⟩
  exact groupSound_of_reached (.step _ (.step _ .init hlone) hpair)

/-- Two members of `2^63` connections each: no product reaches `2^64`, but the `max_load` of the group is 0,
and so it hands out nothing. -/
theorem not_groupSound_of_productsFit :
    ¬ ∀ (maxConnections : Nat → MaxConnections) (s : State),
      Reached (fun s op => (s.step op).sched.ProductsFit) maxConnections s →
      (∀ g, GroupSound s.sched g)
        ∧ ∀ t, (s.sched.targets t).curLoad ≤ (s.sched.targets t).maxLoad := by
  intro h
  have hpair := h (fun _ => ⟨2 ^ 63, by decide⟩) (pairState ⟨2 ^ 63, by decide⟩)
    (.step _ (.step _ .init (productsFit_loneState _)) (productsFit_pairState _))
  have hsum := (hpair.1 0).maxLoad_eq
  have hzero : ((pairState ⟨2 ^ 63, by decide⟩).sched.groups 0).maxLoad = 0 := by decide
  have hmembers : ∑ i ∈ range ((pairState ⟨2 ^ 63, by decide⟩).sched.groups 0).heapSize,
      ((pairState ⟨2 ^ 63, by decide⟩).sched.targets
        (((pairState ⟨2 ^ 63, by decide⟩).sched.groups 0).tgHeap i)).maxLoad = 2 ^ 64 := by decide
  rw [hzero, hmembers] at hsum
  omega

end WorkflowModel.Kernel.CommScheduler
