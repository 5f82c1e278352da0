import WorkflowModel.Proof.JoinRuns

/-!
# What the array of a parallel task holds

`subtask_done` writes into the array of the parent when a task takes over, and what it writes is the parent. So an
array follows the tasks at its positions exactly as long as none of them is taken over.
-/

namespace WorkflowModel.Kernel.SubTask

open TaskTree

variable {tree : TaskTree} {s s' : State} {t u p i : Nat} {q : Nat × Nat} {turn : Turn}
  {history : List (State × Turn)}

def TakenUp (s : State) (t : Nat) : Prop := Frame.call t ∈ s.threads.flatten ∨ Entry.dispatched t ∈ s.log

/-- The task runs, or it was the last one that ran; none has taken over yet. -/
def Current (tree : TaskTree) (s : State) (t : Nat) : Prop :=
  TakenUp s t ∧ ∀ u, tree.next t = some u → ¬ TakenUp s u

def EntriesFollow (tree : TaskTree) (s : State) : Prop :=
  ∀ p i t, tree.InTree p → tree.Chain (p, i) t → Current tree s t →
    (s.subtasks p)[i]? = some t ∧ s.parent t = some p ∧ s.entry t = some (p, i)

/-- The turn of a thread in `subtask_done` whose `done` returned a task, at a position of a parallel task. -/
def HandsOver (s : State) (turn : Turn) : Prop :=
  ∃ thread later cur parent entry rest, turn = .run thread later
    ∧ s.threads[thread]? = some (.handOver cur (some parent) entry :: rest)

theorem mem_tokens_call : Token.call t ∈ s.tokens ↔ Frame.call t ∈ s.frames := by
  simp only [State.tokens, List.mem_append, List.mem_flatMap, List.mem_map]
  constructor
  · rintro (⟨f, hf, hin⟩ | ⟨e, -, hin⟩ | ⟨u, -, hin⟩)
    · rcases f with u | ⟨p, i⟩ | u | ⟨u, parent, entry⟩ | ⟨parent, _ | q⟩ <;> simp [Frame.tokens] at hin
      subst hin
      exact hf
    · rcases e with u | u | (_ | q) <;> simp [Entry.tokens] at hin
    · cases hin
  · intro hf
    exact Or.inl ⟨_, hf, List.mem_singleton_self _⟩

theorem mem_tokens_dispatched : Token.dispatched t ∈ s.tokens ↔ Entry.dispatched t ∈ s.log := by
  simp only [State.tokens, List.mem_append, List.mem_flatMap, List.mem_map]
  constructor
  · rintro (⟨f, -, hin⟩ | ⟨e, he, hin⟩ | ⟨u, -, hin⟩)
    · rcases f with u | ⟨p, i⟩ | u | ⟨u, parent, entry⟩ | ⟨parent, _ | q⟩ <;> simp [Frame.tokens] at hin
    · rcases e with u | u | (_ | q) <;> simp [Entry.tokens] at hin
      subst hin
      exact he
    · cases hin
  · intro he
    exact Or.inr (Or.inl ⟨_, he, List.mem_singleton_self _⟩)

theorem called_pos_iff (s : State) (t : Nat) : 0 < s.called t ↔ TakenUp s t := by
  have htally : ∀ k : Token, (∀ k', k.counts k' = true ↔ k' = k) → (0 < s.ledger.tally k ↔ k ∈ s.tokens) := by
    intro k hk
    simp only [State.ledger, Ledger.worth, List.countP_pos_iff, hk, exists_eq_right]
  have hcall := htally (.call t) (by simp [Token.counts])
  have hdispatched := htally (.dispatched t) (by simp [Token.counts])
  rw [mem_tokens_call] at hcall
  rw [mem_tokens_dispatched] at hdispatched
  rw [TakenUp, ← State.frames, ← hcall, ← hdispatched, State.called]
  omega

section

variable {s₁ : State} {later : Bool} {frame : Frame} {fs : List Frame}

theorem exec_log (hexec : exec tree s later frame = some (s₁, fs)) (ht : Entry.dispatched t ∈ s₁.log) :
    Entry.dispatched t ∈ s.log ∨ frame = .call t := by
  cases frame with
  | call u =>
      have hlog := (dispatch_spec tree s u later).2.1
      rw [show dispatch tree s u later = (s₁, fs) from Option.some.inj hexec] at hlog
      rw [hlog] at ht
      rcases List.mem_append.1 ht with hin | hin
      · exact Or.inl hin
      · rw [List.mem_singleton, Entry.dispatched.injEq] at hin
        exact Or.inr (by rw [hin])
  | loop p i =>
      obtain ⟨u, -, hs⟩ := Option.bind_eq_some_iff.1 hexec
      cases hs
      exact Or.inl ht
  | finish u =>
      have hlog : s₁.log = s.log ++ [.done u] := by
        simp only [exec] at hexec
        split at hexec
        · cases hexec
          rfl
        · split at hexec <;> cases hexec <;> rfl
      rw [hlog] at ht
      exact Or.inl (by simpa using ht)
  | handOver cur parent entry =>
      have hlog : s₁.log = s.log := by
        rcases parent with _ | parent <;> rcases entry with _ | ⟨p, i⟩ <;> cases hexec <;> rfl
      rw [hlog] at ht
      exact Or.inl ht
  | leave parent entry =>
      cases hexec
      exact Or.inl (by simpa using ht)

theorem exec_calls (hexec : exec tree s later frame = some (s₁, fs)) (ht : Frame.call t ∈ fs) :
    (∃ p i, frame = .loop p i ∧ (s.subtasks p)[i]? = some t) ∨ ∃ parent entry, frame = .handOver t parent entry := by
  cases frame with
  | call u =>
      have hframes : fs = (dispatch tree s u later).2 := by
        rw [show dispatch tree s u later = (s₁, fs) from Option.some.inj hexec]
      rw [hframes] at ht
      simp only [dispatch] at ht
      split at ht
      · split at ht <;> simp at ht
      · split at ht <;> simp at ht
  | loop p i =>
      obtain ⟨u, hslot, hs⟩ := Option.bind_eq_some_iff.1 hexec
      cases hs
      rcases List.mem_cons.1 ht with hsame | hin
      · cases hsame
        exact Or.inl ⟨p, i, rfl, hslot⟩
      · split at hin <;> simp at hin
  | finish u =>
      simp only [exec] at hexec
      split at hexec
      · cases hexec
        simp at ht
      · split at hexec <;> cases hexec <;> simp at ht
  | handOver cur parent entry =>
      have hframes : fs = [.call cur] := by
        rcases parent with _ | parent <;> cases hexec <;> rfl
      rw [hframes, List.mem_singleton, Frame.call.injEq] at ht
      subst ht
      exact Or.inr ⟨parent, entry, rfl⟩
  | leave parent entry =>
      cases hexec
      split at ht <;> simp at ht

theorem exec_subtasks (hexec : exec tree s later frame = some (s₁, fs)) :
    s₁.subtasks = s.subtasks ∨ ∃ cur parent entry, frame = .handOver cur (some parent) entry
      ∧ s₁.subtasks = (s.setEntry entry parent).subtasks := by
  cases frame with
  | call u =>
      have hsubtasks := (dispatch_spec tree s u later).2.2.2.2.2
      rw [show dispatch tree s u later = (s₁, fs) from Option.some.inj hexec] at hsubtasks
      exact Or.inl hsubtasks
  | loop p i =>
      obtain ⟨u, -, hs⟩ := Option.bind_eq_some_iff.1 hexec
      cases hs
      exact Or.inl rfl
  | finish u =>
      simp only [exec] at hexec
      split at hexec
      · cases hexec
        exact Or.inl rfl
      · split at hexec <;> cases hexec <;> exact Or.inl rfl
  | handOver cur parent entry =>
      rcases parent with _ | parent
      · cases hexec
        exact Or.inl rfl
      · refine Or.inr ⟨cur, parent, entry, rfl, ?_⟩
        rcases entry with _ | ⟨p, i⟩ <;> cases hexec <;> rfl
  | leave parent entry =>
      cases hexec
      exact Or.inl rfl

theorem exec_threads (hexec : exec tree s later frame = some (s₁, fs)) : s₁.threads = s.threads := by
  cases frame with
  | call u =>
      have hthreads := (dispatch_spec tree s u later).1
      rw [show dispatch tree s u later = (s₁, fs) from Option.some.inj hexec] at hthreads
      exact hthreads
  | loop p i =>
      obtain ⟨u, -, hs⟩ := Option.bind_eq_some_iff.1 hexec
      cases hs
      rfl
  | finish u =>
      simp only [exec] at hexec
      split at hexec
      · cases hexec
        rfl
      · split at hexec <;> cases hexec <;> rfl
  | handOver cur parent entry =>
      rcases parent with _ | parent <;> rcases entry with _ | ⟨p, i⟩ <;> cases hexec <;> rfl
  | leave parent entry =>
      cases hexec
      rfl

end

/-- A turn is the next step of a call, or the end of a pending task. -/
theorem step_cases (hstep : step tree s turn = some s') :
    (∃ thread later frame rest s₁ fs, turn = .run thread later ∧ s.threads[thread]? = some (frame :: rest)
        ∧ exec tree s later frame = some (s₁, fs)
        ∧ s' = { s₁ with threads := s.threads.set thread (fs ++ rest) })
      ∨ ∃ t, turn = .complete t
        ∧ s' = { s with pending := s.pending.erase t, threads := s.threads ++ [[.finish t]] } := by
  cases turn with
  | run thread later =>
      rw [step] at hstep
      split at hstep
      · rename_i frame rest hthread
        obtain ⟨⟨s₁, fs⟩, hexec, hs'⟩ := Option.bind_eq_some_iff.1 hstep
        refine Or.inl ⟨thread, later, frame, rest, s₁, fs, rfl, hthread, hexec, ?_⟩
        rw [← exec_threads hexec]
        exact (Option.some.inj hs').symm
      · cases hstep
  | complete t =>
      rw [step] at hstep
      split at hstep
      · exact Or.inr ⟨t, rfl, (Option.some.inj hstep).symm⟩
      · cases hstep

def TaskTree.First (tree : TaskTree) (t : Nat) : Prop :=
  ∃ (p i : Nat) (l : List Nat), tree.subtasks p = some l ∧ l[i]? = some t

/-- A task is taken up by the loop of its parallel task, or behind another task. -/
theorem takenUp_of_step (h : Sound tree s) (hstep : step tree s turn = some s') (ht : TakenUp s' t) :
    TakenUp s t ∨ tree.First t
      ∨ ∃ thread later parent entry rest, turn = .run thread later
        ∧ s.threads[thread]? = some (.handOver t parent entry :: rest) := by
  rcases step_cases hstep with ⟨thread, later, frame, rest, s₁, fs, rfl, hthread, hexec, rfl⟩ | ⟨u, rfl, rfl⟩
  · obtain ⟨others, hold, hnew⟩ := frames_set fs hthread
    have hin : frame ∈ s.frames := hold.mem_iff.2 List.mem_cons_self
    rcases ht with hcall | hlog
    · rcases List.mem_append.1 (hnew.mem_iff.1 hcall) with hfs | hothers
      · rcases exec_calls hexec hfs with ⟨p, i, rfl, hslot⟩ | ⟨parent, entry, rfl⟩
        · obtain ⟨l, v, -, hl, hv, hslot'⟩ := h.loop_task hin
          rw [hslot] at hslot'
          cases hslot'
          exact Or.inr (Or.inl ⟨p, i, l, hl, hv⟩)
        · exact Or.inr (Or.inr ⟨thread, later, parent, entry, rest, rfl, hthread⟩)
      · exact Or.inl (Or.inl (hold.mem_iff.2 (List.mem_cons_of_mem _ hothers)))
    · rcases exec_log hexec hlog with hlog | rfl
      · exact Or.inl (Or.inr hlog)
      · exact Or.inl (Or.inl hin)
  · left
    rcases ht with hcall | hlog
    · refine Or.inl ?_
      simpa using hcall
    · exact Or.inr hlog

theorem subtasks_of_step (hstep : step tree s turn = some s') (hno : ¬ HandsOver s turn) :
    s'.subtasks = s.subtasks := by
  rcases step_cases hstep with ⟨thread, later, frame, rest, s₁, fs, rfl, hthread, hexec, rfl⟩ | ⟨u, rfl, rfl⟩
  · rcases exec_subtasks hexec with hsame | ⟨cur, parent, entry, rfl, -⟩
    · exact hsame
    · exact absurd ⟨thread, later, cur, parent, entry, rest, rfl, hthread⟩ hno
  · rfl

/-- The arrays are as they were, and only their tasks were taken up. -/
structure Untouched (tree : TaskTree) (s : State) : Prop where
  subtasks : ∀ p l, tree.subtasks p = some l → s.subtasks p = l
  first : ∀ t q, tree.Chain q t → TakenUp s t → tree.First t

theorem untouched_start (tree : TaskTree) : Untouched tree tree.start := by
  constructor
  · intro p l hl
    simp [TaskTree.start, hl]
  · rintro t q hchain (hcall | hlog)
    · simp [TaskTree.start] at hcall
      subst hcall
      have hplace := hchain.place_eq
      rw [tree.place_root] at hplace
      cases hplace
    · simp [TaskTree.start] at hlog

theorem Untouched.step (hs : Untouched tree s) (h : Sound tree s) (hstep : step tree s turn = some s')
    (hno : ¬ HandsOver s turn) : Untouched tree s' := by
  constructor
  · intro p l hl
    rw [subtasks_of_step hstep hno]
    exact hs.subtasks p l hl
  · intro t q hchain ht
    rcases takenUp_of_step h hstep ht with hold | hfirst | ⟨thread, later, parent, entry, rest, rfl, hthread⟩
    · exact hs.first t q hchain hold
    · exact hfirst
    · have hin : Frame.handOver t parent entry ∈ s.frames := by
        obtain ⟨others, hold, -⟩ := frames_set [] hthread
        exact hold.mem_iff.2 List.mem_cons_self
      obtain ⟨-, -, -, hparent⟩ := h.frames _ hin
      rw [hchain.place_eq] at hparent
      subst hparent
      exact absurd ⟨thread, later, t, q.1, entry, rest, rfl, hthread⟩ hno

theorem Untouched.entriesFollow (hs : Untouched tree s) (h : Sound tree s) : EntriesFollow tree s := by
  intro p i t hp hchain hcurrent
  have htaken := hcurrent.1
  have htree : tree.InTree t := hchain.inTree hp
  have hpos : 0 < s.called t := (called_pos_iff s t).2 htaken
  obtain ⟨hparent, hentry⟩ := h.fields t htree hpos
  rw [hchain.place_eq] at hparent hentry
  obtain ⟨p', i', l, hl, ht⟩ := hs.first t (p, i) hchain htaken
  have hplace := tree.place_child p' i' t l hl ht
  rw [hchain.place_eq] at hplace
  cases hplace
  refine ⟨?_, hparent, hentry⟩
  rw [hs.subtasks p l hl]
  exact ht

/-- After a hand-over the array has the parallel task itself at the position. -/
theorem not_entriesFollow_of_handsOver (h : Sound tree s) (hstep : step tree s turn = some s')
    (hover : HandsOver s turn) : ¬ EntriesFollow tree s' := by
  intro hfollow
  have hs' := h.step hstep
  obtain ⟨thread, later, cur, parent, entry, rest, rfl, hthread⟩ := hover
  obtain ⟨others, hold, hnew⟩ := frames_set [.call cur] hthread
  have hin : Frame.handOver cur (some parent) entry ∈ s.frames := hold.mem_iff.2 List.mem_cons_self
  obtain ⟨htree, -, rfl, hparent⟩ := h.frames _ hin
  obtain ⟨q, hplace, hq⟩ := Option.map_eq_some_iff.1 hparent.symm
  subst hq
  obtain ⟨hchain, hp⟩ := htree.chain hplace
  rcases step_cases hstep with ⟨_, _, frame, _, s₁, fs, hturn, hthread', hexec, rfl⟩ | ⟨u, hturn, -⟩
  · cases hturn
    rw [hthread] at hthread'
    cases hthread'
    rw [hplace] at hexec
    have hfs : fs = [.call cur] := by
      cases hexec
      rfl
    have hwritten : s₁.subtasks = Function.update s.subtasks q.1 ((s.subtasks q.1).set q.2 q.1) := by
      cases hexec
      rfl
    subst hfs
    have htaken : TakenUp { s₁ with threads := s.threads.set thread ([.call cur] ++ rest) } cur :=
      Or.inl (hnew.mem_iff.2 List.mem_cons_self)
    have hcurrent : Current tree { s₁ with threads := s.threads.set thread ([.call cur] ++ rest) } cur := by
      refine ⟨htaken, ?_⟩
      intro u hu hutaken
      rw [← called_pos_iff] at htaken hutaken
      have hpos := tally_pos (s := { s₁ with threads := s.threads.set thread ([.call cur] ++ rest) })
        (k := .call cur) (hnew.mem_iff.2 List.mem_cons_self) (List.mem_singleton_self _)
      have := hs'.balanced.next cur u hu
      have := hs'.balanced.done_le cur
      have := hs'.balanced.call_le_one htree
      simp only [State.called] at hutaken
      omega
    obtain ⟨hslot, -, -⟩ := hfollow q.1 q.2 cur hp hchain hcurrent
    simp only [hwritten, Function.update_self, List.getElem?_set_self'] at hslot
    rcases hslot' : (s.subtasks q.1)[q.2]? with _ | v
    · rw [hslot'] at hslot
      cases hslot
    · rw [hslot'] at hslot
      cases hslot
      exact hchain.ne rfl
  · cases hturn

/-- In a run the arrays follow the tasks at their positions if and only if no task is taken over at a position. -/
theorem entriesFollow_iff_no_handOver (hrun : Run tree history s) :
    (∀ x ∈ history, EntriesFollow tree x.1) ∧ EntriesFollow tree s ↔ ∀ x ∈ history, ¬ HandsOver x.1 x.2 := by
  constructor
  · induction hrun with
    | start => simp
    | step hrun hstep ih =>
        simp only [List.forall_mem_append, List.forall_mem_singleton]
        rintro ⟨⟨hhistory, hfollow⟩, hfollow'⟩
        refine ⟨ih ⟨hhistory, hfollow⟩, ?_⟩
        intro hover
        exact not_entriesFollow_of_handsOver hrun.sound hstep hover hfollow'
  · intro hno
    suffices h : (∀ x ∈ history, EntriesFollow tree x.1) ∧ Untouched tree s from
      ⟨h.1, h.2.entriesFollow hrun.sound⟩
    induction hrun with
    | start => exact ⟨by simp, untouched_start tree⟩
    | step hrun hstep ih =>
        simp only [List.forall_mem_append, List.forall_mem_singleton] at hno ⊢
        obtain ⟨hhistory, hs⟩ := ih hno.1
        exact ⟨⟨hhistory, hs.entriesFollow hrun.sound⟩, hs.step hrun.sound hstep hno.2⟩

theorem entriesFollow_laterTurns : ∃ history s, Run twoPositions history s ∧ history.length = 9
    ∧ ((∀ x ∈ history, EntriesFollow twoPositions x.1) ∧ EntriesFollow twoPositions s
      ↔ ∀ x ∈ history, ¬ HandsOver x.1 x.2) := by
  have hends : (replay twoPositions (laterTurns.take 9)).map (fun r => r.1.length) = some 9 := by decide +kernel
  obtain ⟨r, hreplay, hr⟩ := Option.map_eq_some_iff.1 hends
  have hrun := run_of_replay hreplay
  exact ⟨r.1, r.2, hrun, hr, entriesFollow_iff_no_handOver hrun⟩

/-- When the task 3 has taken over from the task 1, the first entry of the array points to the parallel task 0. -/
theorem strayEntry_laterTurns : ¬ ∀ tree history s, Run tree history s → EntriesFollow tree s := by
  intro hfollow
  have hends : (replay twoPositions (laterTurns.take 10)).map
      (fun r => (r.2.threads.flatten, r.2.log, r.2.subtasks 0))
        = some ([.call 3], [.dispatched 0, .dispatched 1, .dispatched 2, .done 2, .left (some (0, 1)), .done 1],
            [0, 2]) := by decide +kernel
  obtain ⟨r, hreplay, hr⟩ := Option.map_eq_some_iff.1 hends
  have hthreads : r.2.threads.flatten = [.call 3] := congrArg Prod.fst hr
  have harray : r.2.subtasks 0 = [0, 2] := congrArg (fun x => x.2.2) hr
  have hchain : twoPositions.Chain (0, 0) 3 :=
    ⟨[1, 2], 1, rfl, rfl, .single (show twoPositions.next 1 = some 3 from rfl)⟩
  have hcurrent : Current twoPositions r.2 3 := by
    refine ⟨Or.inl (by rw [hthreads]; exact List.mem_cons_self), ?_⟩
    intro u hu
    cases hu
  obtain ⟨hslot, -, -⟩ := hfollow twoPositions r.1 r.2 (run_of_replay hreplay) 0 0 3 .root hchain hcurrent
  rw [harray] at hslot
  cases hslot

end WorkflowModel.Kernel.SubTask
