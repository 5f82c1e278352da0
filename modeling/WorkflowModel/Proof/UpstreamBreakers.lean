import WorkflowModel.Proof.UpstreamTouches
import Mathlib.Data.List.Infix

/-!
# The counter of broken servers

`notify_unavailable`, `disable_server` and `check_one_breaker` adjust `nbreak` with the breaker list.
`notify_available`, also where `enable_server` calls it, takes a server out of the list and leaves the
counter. So the counter never falls behind the list, and it is exact in every state of a run as long as no
attached server is taken out of the list that way.
-/

namespace WorkflowModel.Manager.Upstream

open WorkflowModel

def Level (s : Upstream) : Prop :=
  ∀ id ∈ s.groupIds, (s.group id).nbreak = (s.group id).breakerList.length

/-- No attached server is taken out of a breaker list by a report that it is available. -/
def Quiet (s : Upstream) : Op → Prop
  | .notifyAvailable i => (s.addresses i).group ≠ none → (s.addresses i).inList = false
  | .enableServer address => ∀ i ∈ s.serverMap address, (s.addresses i).inList = false
  | _ => True

variable {s : Upstream}

theorem level_iff (h : Linked s) : Level s ↔ ∀ id, drift (s.group id) = 0 := by
  constructor
  · intro hlevel id
    by_cases hid : id ∈ s.groupIds
    · exact sub_eq_zero.2 (hlevel id hid)
    · rw [h.absent id hid]
      rfl
  · intro hdrift id _
    exact sub_eq_zero.1 (hdrift id)

theorem notifyAvailable_addresses (i j : Nat) (s : Upstream) :
    (notifyAvailable i s).addresses j =
      if j = i then
        { s.addresses i with
          inList := if (s.addresses i).group = none then (s.addresses i).inList else false
          failCount := 0 }
      else
        s.addresses j := by
  cases hgroup : (s.addresses i).group with
  | none => simp [notifyAvailable, hgroup, setAddress, Function.update_apply]
  | some id =>
      simp only [notifyAvailable, hgroup, gainOneServer_eq, setAddress, setGroup]
      split_ifs <;> simp_all [Function.update_apply]

theorem touches_foldl_notifyAvailable (l : List Nat) (h : Linked s)
    (hl : ∀ i ∈ l, i < s.count ∧ (s.addresses i).inList = false) :
    Touches (· = ·) s (l.foldl (fun s i => notifyAvailable i s) s) := by
  induction l generalizing s with
  | nil => exact .refl
  | cons i rest ih =>
      obtain ⟨hi, hin⟩ := hl i (List.mem_cons_self ..)
      have hfirst := touches_notifyAvailable_of_quiet h hi fun _ => hin
      refine hfirst.trans (ih (hfirst.linked h) ?_)
      intro j hj
      obtain ⟨hlt, hlist⟩ := hl j (List.mem_cons_of_mem i hj)
      refine ⟨hfirst.frame.1 ▸ hlt, ?_⟩
      rw [notifyAvailable_addresses]
      split_ifs
      · exact hin
      · rfl
      · exact hlist

/-- Once a listed server has been reported, the counter of its group is ahead for good. -/
theorem exists_drift_lt_foldl {l : List Nat} (h : Linked s) (hlt : ∀ j ∈ l, j < s.count) {i : Nat}
    (hi : i ∈ l) (hgroup : (s.addresses i).group ≠ none) (hin : (s.addresses i).inList = true) :
    ∃ id, drift (s.group id) < drift ((l.foldl (fun s i => notifyAvailable i s) s).group id) := by
  induction l generalizing s with
  | nil => cases hi
  | cons j rest ih =>
      have hj : j < s.count := hlt j (List.mem_cons_self ..)
      have hfirst := touches_notifyAvailable h hj
      have hrest : ∀ k ∈ rest, k < (notifyAvailable j s).count := by
        intro k hk
        rw [hfirst.frame.1]
        exact hlt k (List.mem_cons_of_mem j hk)
      by_cases heq : i = j
      · obtain ⟨id, hid⟩ := Option.ne_none_iff_exists'.1 hgroup
        obtain ⟨ua, group, available, hstep, htouch⟩ := touch_notifyAvailable h hid hin
        have hlast := (Touches.foldl (fun _ _ hu hk => touches_notifyAvailable hu hk) rest
          (hfirst.linked h) hrest).counter id
        refine ⟨id, lt_of_lt_of_le ?_ hlast⟩
        rw [← heq, hstep, restate_group_self]
        exact htouch.counter
      · have hsame : (notifyAvailable j s).addresses i = s.addresses i := by
          rw [notifyAvailable_addresses, if_neg heq]
        obtain ⟨id, hid⟩ := ih (hfirst.linked h) hrest ((List.mem_cons.1 hi).resolve_left heq)
          (hsame ▸ hgroup) (hsame ▸ hin)
        exact ⟨id, lt_of_le_of_lt (hfirst.counter id) hid⟩

theorem drift_step_of_quiet (h : Linked s) {op : Op} (hquiet : Quiet s op) (id : Int) :
    drift ((step s op).group id) = drift (s.group id) := by
  cases op with
  | add address params hashes =>
      obtain ⟨hlist, hnbreak⟩ := h.add_breakers address params hashes id
      simp only [step, drift, hlist, hnbreak]
  | del address =>
      obtain ⟨hlist, hnbreak⟩ := leaveAll_breakers (s.serverMap address) s id
      change drift ((leaveAll (s.serverMap address) s).group id) = _
      simp only [drift, hlist, hnbreak]
  | disableServer address now =>
      exact ((touches_foldl_serverMap h address
        fun _ _ hu hi => touches_disableOne hu now hi).counter id).symm
  | enableServer address =>
      refine ((touches_foldl_notifyAvailable (s.serverMap address) h ?_).counter id).symm
      exact fun i hi => ⟨h.lt_count ((h.mem_serverMap address i).1 hi).1, hquiet i hi⟩
  | notifyAvailable i =>
      simp only [step]
      split_ifs with hi
      · exact ((touches_notifyAvailable_of_quiet h hi hquiet).counter id).symm
      · rfl
  | notifyUnavailable i now =>
      simp only [step]
      split_ifs with hi
      · exact ((touches_notifyUnavailable h now hi).counter id).symm
      · rfl
  | checkOneBreaker k now =>
      simp only [step]
      split_ifs
      · exact ((touches_checkOneBreaker h k now).counter id).symm
      · rfl
  | checkAllBreaker now => exact ((touches_checkAllBreaker h now).counter id).symm

theorem exists_drift_lt_step (h : Linked s) {op : Op} (hloud : ¬ Quiet s op) :
    ∃ id, drift (s.group id) < drift ((step s op).group id) := by
  cases op with
  | enableServer address =>
      simp only [Quiet, not_forall, Bool.not_eq_false] at hloud
      obtain ⟨i, hi, hin⟩ := hloud
      have hlt : ∀ j ∈ s.serverMap address, j < s.count :=
        fun j hj => h.lt_count ((h.mem_serverMap address j).1 hj).1
      exact exists_drift_lt_foldl h hlt hi ((h.mem_serverMap address i).1 hi).1 hin
  | notifyAvailable i =>
      simp only [Quiet, not_forall, Bool.not_eq_false] at hloud
      obtain ⟨hgroup, hin⟩ := hloud
      have hi : i < s.count := h.lt_count hgroup
      have hone : ∀ j ∈ [i], j < s.count := by simpa using hi
      simp only [step, if_pos hi]
      exact exists_drift_lt_foldl h hone (List.mem_singleton_self i) hgroup hin
  | _ => exact absurd trivial hloud

theorem level_step_iff (h : Linked s) (hlevel : Level s) (op : Op) :
    Level (step s op) ↔ Quiet s op := by
  rw [level_iff h] at hlevel
  rw [level_iff (h.step op)]
  constructor
  · intro hstep
    by_contra hloud
    obtain ⟨id, hlt⟩ := exists_drift_lt_step h hloud
    rw [hlevel id, hstep id] at hlt
    exact lt_irrefl 0 hlt
  · intro hquiet id
    rw [drift_step_of_quiet h hquiet, hlevel id]

theorem level_emptyUpstream : Level emptyUpstream := fun _ _ => rfl

theorem run_concat (s : Upstream) (ops : List Op) (op : Op) :
    run s (ops ++ [op]) = step (run s ops) op := by
  simp [run]

/-- The counters are exact in every state of a run exactly when no operation of the run takes an attached
server out of a list by a report that it is available. -/
theorem level_iff_quiet (ops : List Op) :
    (∀ before, before <+: ops → Level (run emptyUpstream before))
      ↔ ∀ before op, before ++ [op] <+: ops → Quiet (run emptyUpstream before) op := by
  constructor
  · intro hlevel before op hprefix
    have hbefore : Level (run emptyUpstream before) :=
      hlevel before ((List.prefix_append before [op]).trans hprefix)
    rw [← level_step_iff (linked_emptyUpstream.run before) hbefore, ← run_concat]
    exact hlevel _ hprefix
  · intro hquiet before
    induction before using List.reverseRecOn with
    | nil => exact fun _ => level_emptyUpstream
    | append_singleton before op ih =>
        intro hprefix
        have hbefore := ih ((List.prefix_append before [op]).trans hprefix)
        rw [run_concat, level_step_iff (linked_emptyUpstream.run before) hbefore]
        exact hquiet before op hprefix

/-- One server that breaks and is reported available again: one is counted, none is listed. -/
theorem not_level_reportedAvailable :
    ¬ Level (run emptyUpstream [.add [1] ⟨1, 1, .master, -1⟩ [], .notifyUnavailable 0 100,
      .notifyAvailable 0]) := by
  intro hlevel
  exact absurd (hlevel (-1) (by decide)) (by decide)

end WorkflowModel.Manager.Upstream
