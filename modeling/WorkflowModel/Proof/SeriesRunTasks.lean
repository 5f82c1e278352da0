import WorkflowModel.Proof.SeriesRunSteps

/-!
# What becomes of the tasks of a series

A task of a series is in one place at any time: in the ring, with the thread that runs the series, held by a
helper, or gone. A task that is held has a helper that is still to come, unless `pop` has deleted the helper.
-/

namespace WorkflowModel.Factory.SeriesRun

variable {T : Type*} {s t : State T}

def Turn.added : Turn T → List T
  | .pushBack task | .pushFront task | .route task => [task]
  | _ => []

def Phase.tasks (first : T) : Phase T → List T
  | .created => [first]
  | .running task | .dropping task => [task]
  | _ => []

def State.held (s : State T) : List T := s.waiting.map Prod.snd

def State.present (s : State T) : List T := s.phase.tasks s.first ++ s.series.deque.left

def State.account (s : State T) : List T := s.finished ++ s.dropped ++ s.forgotten ++ s.held ++ s.present

section

variable {before after : SeriesWork T}

theorem left_pushFront {task : T} (h : after.deque = { before.deque with tasks := task :: before.tasks }) :
    after.deque.left = task :: before.deque.left := by
  rw [h]
  rfl

theorem left_pushBack {task : T} (h : after.deque = { before.deque with tasks := before.tasks ++ [task] }) :
    after.deque.left.Perm (task :: before.deque.left) := by
  rw [h, TaskDeque.left, List.append_assoc]
  exact List.perm_middle

end

variable [DecidableEq T]

theorem held_erase_perm {helper task : T} (h : (helper, task) ∈ s.waiting) :
    s.held.Perm (task :: (s.waiting.erase (helper, task)).map Prod.snd) :=
  (List.perm_cons_erase h).map Prod.snd

theorem account_of_effect {turn : Turn T} (h : Effect s turn t) : t.account.Perm (turn.added ++ s.account) := by
  rw [List.perm_iff_count]
  intro x
  cases h with
  | start hphase =>
      simp only [State.account, State.present, hphase, Phase.tasks, Turn.added, List.nil_append]
      rfl
  | dismiss series hphase hparallel hseries =>
      simp only [State.account, State.present, State.held, hphase, hseries, Phase.tasks, Turn.added, TaskDeque.finish,
        TaskDeque.left, List.count_append, List.count_cons, List.count_nil, Option.toList_none]
      omega
  | pushBack task series hphase hseries =>
      have hleft := (left_pushBack hseries).count_eq x
      simp only [State.account, State.present, State.held, hleft, Turn.added, List.count_append, List.count_cons,
        List.count_nil]
      omega
  | pushFront task series hphase hseries =>
      have hleft := left_pushFront hseries
      simp only [State.account, State.present, State.held, hleft, Turn.added, List.count_append, List.count_cons,
        List.count_nil]
      omega
  | cancel hphase => rfl
  | setCallback callback hphase => rfl
  | route task helper series hphase hseries =>
      have hleft := left_pushFront hseries
      simp only [State.account, State.present, State.held, hphase, hleft, Phase.tasks, Turn.added, List.map_cons,
        List.count_append, List.count_cons, List.count_nil]
      omega
  | resume task helper held series hphase hheld hseries =>
      have hcount := (held_erase_perm hheld).count_eq x
      have hleft := left_pushFront hseries
      rw [List.count_cons] at hcount
      simp only [State.account, State.present, hphase, hleft, Phase.tasks, Turn.added, List.count_append,
        List.count_cons, List.count_nil, hcount]
      simp only [State.held]
      omega
  | abandon task helper held hphase hheld hfree =>
      have hcount := (held_erase_perm hheld).count_eq x
      rw [List.count_cons] at hcount
      simp only [State.account, State.present, Turn.added, List.count_append, List.count_cons, List.count_nil, hcount]
      simp only [State.held]
      omega
  | finish task hphase hfree =>
      simp only [State.account, State.present, State.held, hphase, Phase.tasks, Turn.added, List.count_append,
        List.count_nil]
      omega
  | again task series hphase hseries =>
      have hleft := left_pushFront hseries
      simp only [State.account, State.present, State.held, hphase, hleft, Phase.tasks, Turn.added, List.count_append,
        List.count_cons, List.count_nil]
      omega
  | forget task hphase hfree =>
      simp only [State.account, State.present, State.held, hphase, Phase.tasks, Turn.added, List.count_append,
        List.count_nil]
      omega
  | readCanceled hphase =>
      simp only [State.account, State.present, State.held, hphase, Phase.tasks, Turn.added]
      rfl
  | popRun task series hphase hpop =>
      simp only [State.account, State.present, State.held, hphase, hpop.left_eq, Phase.tasks, Turn.added,
        Option.toList_some]
      rfl
  | popDrop task series hphase hpop =>
      simp only [State.account, State.present, State.held, hphase, hpop.left_eq, Phase.tasks, Turn.added,
        Option.toList_some]
      rfl
  | popEnd canceled series hphase hpop =>
      simp only [State.account, State.present, State.held, hphase, hpop.left_eq, Phase.tasks, Turn.added,
        Option.toList_none]
      rfl
  | deleteNext out task series hphase hpop =>
      simp only [State.account, State.present, State.held, hphase, hpop.left_eq, Phase.tasks, Turn.added,
        Option.toList_some, List.count_append, List.count_cons, List.count_nil]
      omega
  | deleteLast out series hphase hpop =>
      simp only [State.account, State.present, State.held, hphase, hpop.left_eq, Phase.tasks, Turn.added,
        Option.toList_none, List.count_append, List.count_cons, List.count_nil]
      omega

omit [DecidableEq T]

/-- Every helper is one of the tasks `live`, or a newer helper holds it. -/
def Supported (live : T → Prop) : List (T × T) → Prop
  | [] => True
  | (helper, task) :: waiting => live helper ∧ Supported (fun x => live x ∨ x = task) waiting

theorem Supported.mono {live live' : T → Prop} {waiting : List (T × T)} (h : Supported live waiting)
    (hlive : ∀ x ∈ waiting.map Prod.fst, live x → live' x) : Supported live' waiting := by
  induction waiting generalizing live live' with
  | nil => trivial
  | cons pair waiting ih =>
      obtain ⟨hhelper, hrest⟩ := h
      refine ⟨hlive pair.1 (by simp) hhelper, ih hrest fun x hx hor => ?_⟩
      exact hor.imp_left (hlive x (List.mem_cons_of_mem _ hx))

theorem Supported.erase [DecidableEq T] {live : T → Prop} {waiting : List (T × T)} {helper task : T}
    (h : Supported live waiting) (hheld : (helper, task) ∈ waiting) :
    Supported (fun x => live x ∨ x = task) (waiting.erase (helper, task)) := by
  induction waiting generalizing live with
  | nil => cases hheld
  | cons pair waiting ih =>
      obtain ⟨hhelper, hrest⟩ := h
      by_cases hpair : pair = (helper, task)
      · rw [hpair] at hrest ⊢
        rwa [List.erase_cons_head]
      · rw [List.erase_cons_tail (by simpa using hpair)]
        have hheld : (helper, task) ∈ waiting := by
          obtain heq | hmem := List.mem_cons.mp hheld
          · exact absurd heq.symm hpair
          · exact hmem
        refine ⟨Or.inl hhelper, (ih hrest hheld).mono fun x _ hx => ?_⟩
        tauto

theorem Supported.eq_nil {live : T → Prop} {waiting : List (T × T)} (h : Supported live waiting)
    (hlive : ∀ x, ¬ live x) : waiting = [] := by
  cases waiting with
  | nil => rfl
  | cons pair waiting => exact absurd h.1 (hlive pair.1)

def State.Live (s : State T) (task : T) : Prop := task ∈ s.present ∨ task ∈ s.dropped

theorem supported_of_live (h : Supported s.Live s.waiting) (hwaiting : t.waiting = s.waiting)
    (hlive : ∀ x, s.IsHelper x → s.Live x → t.Live x) : Supported t.Live t.waiting := by
  rw [hwaiting]
  exact h.mono hlive

theorem supported_of_present (h : Supported s.Live s.waiting) (hwaiting : t.waiting = s.waiting)
    (hdropped : t.dropped = s.dropped) (hpresent : t.present = s.present) : Supported t.Live t.waiting := by
  apply supported_of_live h hwaiting
  intro x _
  unfold State.Live
  rw [hpresent, hdropped]
  exact id

theorem supported_of_effect [DecidableEq T] {turn : Turn T} (he : Effect s turn t) (h : Supported s.Live s.waiting) :
    Supported t.Live t.waiting := by
  cases he with
  | start hphase =>
      refine supported_of_present h rfl rfl ?_
      simp [State.present, hphase, Phase.tasks]
  | dismiss series hphase hparallel hseries =>
      refine supported_of_live h rfl fun x _ hx => ?_
      simp only [State.Live, State.present, hphase, Phase.tasks, List.mem_append, List.mem_cons] at hx ⊢
      tauto
  | pushBack task series hphase hseries =>
      refine supported_of_live h rfl fun x _ hx => ?_
      simp only [State.Live, State.present, List.mem_append, (left_pushBack hseries).mem_iff, List.mem_cons] at hx ⊢
      tauto
  | pushFront task series hphase hseries =>
      refine supported_of_live h rfl fun x _ hx => ?_
      simp only [State.Live, State.present, List.mem_append, left_pushFront hseries, List.mem_cons] at hx ⊢
      tauto
  | cancel hphase => exact h
  | setCallback callback hphase => exact h
  | route task helper series hphase hseries =>
      refine ⟨Or.inl ?_, h.mono fun x _ hx => ?_⟩
      · simp [State.present, left_pushFront hseries]
      · simp only [State.Live, State.present, hphase, Phase.tasks, List.mem_append, List.mem_cons,
          left_pushFront hseries, List.not_mem_nil] at hx ⊢
        tauto
  | resume task helper held series hphase hheld hseries =>
      refine (h.erase hheld).mono fun x _ hx => ?_
      simp only [State.Live, State.present, List.mem_append, left_pushFront hseries, List.mem_cons] at hx ⊢
      tauto
  | abandon task helper held hphase hheld hfree =>
      refine (h.erase hheld).mono fun x hx hor => ?_
      obtain hlive | rfl := hor
      · exact hlive
      · refine absurd ?_ hfree
        obtain ⟨pair, hpair, heq⟩ := List.mem_map.mp hx
        exact List.mem_map.mpr ⟨pair, List.mem_of_mem_erase hpair, heq⟩
  | finish task hphase hfree =>
      refine supported_of_live h rfl fun x hx hlive => ?_
      have hne : x ≠ task := fun heq => hfree (heq ▸ hx)
      simp only [State.Live, State.present, hphase, Phase.tasks, List.mem_append, List.mem_singleton] at hlive ⊢
      tauto
  | again task series hphase hseries =>
      refine supported_of_present h rfl rfl ?_
      simp [State.present, hphase, Phase.tasks, left_pushFront hseries]
  | forget task hphase hfree =>
      refine supported_of_live h rfl fun x hx hlive => ?_
      have hne : x ≠ task := fun heq => hfree (heq ▸ hx)
      simp only [State.Live, State.present, hphase, Phase.tasks, List.mem_append, List.mem_singleton] at hlive ⊢
      tauto
  | readCanceled hphase =>
      refine supported_of_present h rfl rfl ?_
      simp [State.present, hphase, Phase.tasks]
  | popRun task series hphase hpop =>
      refine supported_of_present h rfl rfl ?_
      simp [State.present, hphase, Phase.tasks, hpop.left_eq]
  | popDrop task series hphase hpop =>
      refine supported_of_present h rfl rfl ?_
      simp [State.present, hphase, Phase.tasks, hpop.left_eq]
  | popEnd canceled series hphase hpop =>
      refine supported_of_present h rfl rfl ?_
      simp [State.present, hphase, Phase.tasks, hpop.left_eq]
  | deleteNext out task series hphase hpop =>
      refine supported_of_live h rfl fun x _ hx => ?_
      simp only [State.Live, State.present, hphase, Phase.tasks, hpop.left_eq, Option.toList_some, List.mem_append,
        List.mem_singleton] at hx ⊢
      tauto
  | deleteLast out series hphase hpop =>
      refine supported_of_live h rfl fun x _ hx => ?_
      simp only [State.Live, State.present, hphase, Phase.tasks, hpop.left_eq, Option.toList_none, List.mem_append,
        List.mem_singleton] at hx ⊢
      tauto

theorem left_finish (d : TaskDeque T) : d.finish.left = [] := rfl

/-- The callback of the series and its deletion are left to the end, which finds no task. -/
structure State.Ends (s : State T) : Prop where
  before : s.phase ≠ .ended → s.callbacks = 0 ∧ s.series.deque.gone = false
  after : s.phase = .ended → s.series.deque.left = [] ∧ s.callbacks = s.series.deque.callbacks
    ∧ s.series.deque.gone = !s.series.deque.inParallel

theorem Effect.phase_ne [DecidableEq T] {turn : Turn T} (he : Effect s turn t) : s.phase ≠ .ended := by
  cases he <;> simp_all

theorem ends_of_before (h : s.Ends) (hs : s.phase ≠ .ended) (ht : t.phase ≠ .ended)
    (hcallbacks : t.callbacks = s.callbacks) (hgone : t.series.deque.gone = s.series.deque.gone) : t.Ends := by
  refine ⟨fun _ => ?_, fun hended => absurd hended ht⟩
  rw [hcallbacks, hgone]
  exact h.before hs

theorem ends_of_finish {d : TaskDeque T} (hphase : t.phase = .ended) (hseries : t.series.deque = d.finish)
    (hcallbacks : t.callbacks = d.callbacks) : t.Ends := by
  refine ⟨fun hne => absurd hphase hne, fun _ => ?_⟩
  rw [hcallbacks, hseries]
  exact ⟨rfl, rfl, rfl⟩

theorem ends_of_effect [DecidableEq T] {turn : Turn T} (he : Effect s turn t) (h : s.Ends) : t.Ends := by
  have hne := he.phase_ne
  have hzero := (h.before hne).1
  cases he with
  | start hphase => exact ends_of_before h hne (by simp) rfl rfl
  | dismiss series hphase hparallel hseries => exact ends_of_finish rfl hseries hzero
  | pushBack task series hphase hseries => exact ends_of_before h hne hphase rfl (by simp only [hseries])
  | pushFront task series hphase hseries => exact ends_of_before h hne hphase rfl (by simp only [hseries])
  | cancel hphase => exact ends_of_before h hne hphase rfl rfl
  | setCallback callback hphase => exact ends_of_before h hne hphase rfl rfl
  | route task helper series hphase hseries =>
      exact ends_of_before h hne (by simp) rfl (by simp only [hseries])
  | resume task helper held series hphase hheld hseries =>
      exact ends_of_before h hne hne rfl (by simp only [hseries])
  | abandon task helper held hphase hheld hfree => exact ends_of_before h hne hne rfl rfl
  | finish task hphase hfree => exact ends_of_before h hne (by simp) rfl rfl
  | again task series hphase hseries => exact ends_of_before h hne (by simp) rfl (by simp only [hseries])
  | forget task hphase hfree => exact ends_of_before h hne (by simp) rfl rfl
  | readCanceled hphase => exact ends_of_before h hne (by simp) rfl rfl
  | popRun task series hphase hpop => exact ends_of_before h hne (by simp) rfl hpop.sameFlags.gone
  | popDrop task series hphase hpop => exact ends_of_before h hne (by simp) rfl hpop.sameFlags.gone
  | popEnd canceled series hphase hpop =>
      refine ends_of_finish rfl hpop.finish_eq ?_
      rw [hzero, Nat.zero_add]
  | deleteNext out task series hphase hpop => exact ends_of_before h hne (by simp) rfl hpop.sameFlags.gone
  | deleteLast out series hphase hpop =>
      refine ends_of_finish rfl hpop.finish_eq ?_
      rw [hzero, Nat.zero_add]

def Phase.drops : Phase T → Bool
  | .popping true | .dropping _ => true
  | _ => false

/-- Tasks are only dropped in a series that was canceled, after all those that run, or in one that never ran. -/
structure State.Drops (s : State T) : Prop where
  created : s.phase = .created → s.dispatched = []
  canceled : s.phase.drops = true → s.series.deque.canceled = true
  late : s.dropped ≠ [] → s.phase = .ended ∨ s.phase.drops = true
  reason : s.dropped ≠ [] → s.series.deque.canceled = true ∨ s.dispatched = []

theorem State.Drops.dropped_eq_nil (h : s.Drops) (hended : s.phase ≠ .ended) (hdrops : s.phase.drops = false) :
    s.dropped = [] := by
  by_contra hne
  obtain hphase | hphase := h.late hne
  · exact hended hphase
  · rw [hdrops] at hphase
    cases hphase

theorem drops_of_nil (hcreated : t.phase ≠ .created) (hdrops : t.phase.drops = false) (hdropped : t.dropped = []) :
    t.Drops := by
  refine ⟨fun hphase => absurd hphase hcreated, fun hphase => ?_, fun hne => absurd hdropped hne,
    fun hne => absurd hdropped hne⟩
  rw [hdrops] at hphase
  cases hphase

theorem drops_of_same (h : s.Drops) (hphase : t.phase = s.phase) (hdispatched : t.dispatched = s.dispatched)
    (hdropped : t.dropped = s.dropped)
    (hcanceled : s.series.deque.canceled = true → t.series.deque.canceled = true) : t.Drops := by
  refine ⟨?_, ?_, ?_, ?_⟩
  · rw [hphase, hdispatched]
    exact h.created
  · rw [hphase]
    exact fun hdrops => hcanceled (h.canceled hdrops)
  · rw [hphase, hdropped]
    exact h.late
  · rw [hdispatched, hdropped]
    exact fun hne => (h.reason hne).imp_left hcanceled

theorem drops_of_canceled (hcreated : t.phase ≠ .created) (hphase : t.phase = .ended ∨ t.phase.drops = true)
    (hcanceled : t.series.deque.canceled = true) : t.Drops :=
  ⟨fun hnew => absurd hnew hcreated, fun _ => hcanceled, fun _ => hphase, fun _ => .inl hcanceled⟩

theorem drops_of_effect [DecidableEq T] {turn : Turn T} (he : Effect s turn t) (h : s.Drops) : t.Drops := by
  have hnil := h.dropped_eq_nil he.phase_ne
  cases he with
  | start hphase => exact drops_of_nil (by simp) rfl (hnil (by rw [hphase]; rfl))
  | dismiss series hphase hparallel hseries =>
      refine ⟨fun hnew => ?_, fun hdrops => ?_, fun _ => .inl rfl, fun _ => .inr (h.created hphase)⟩
      · cases hnew
      · cases hdrops
  | pushBack task series hphase hseries => exact drops_of_same h rfl rfl rfl (by simp only [hseries]; exact id)
  | pushFront task series hphase hseries => exact drops_of_same h rfl rfl rfl (by simp only [hseries]; exact id)
  | cancel hphase => exact drops_of_same h rfl rfl rfl fun _ => rfl
  | setCallback callback hphase => exact drops_of_same h rfl rfl rfl id
  | route task helper series hphase hseries => exact drops_of_nil (by simp) rfl (hnil (by rw [hphase]; rfl))
  | resume task helper held series hphase hheld hseries =>
      exact drops_of_same h rfl rfl rfl (by simp only [hseries]; exact id)
  | abandon task helper held hphase hheld hfree => exact drops_of_same h rfl rfl rfl id
  | finish task hphase hfree => exact drops_of_nil (by simp) rfl (hnil (by rw [hphase]; rfl))
  | again task series hphase hseries => exact drops_of_nil (by simp) rfl (hnil (by rw [hphase]; rfl))
  | forget task hphase hfree => exact drops_of_nil (by simp) rfl (hnil (by rw [hphase]; rfl))
  | readCanceled hphase =>
      have hdropped := hnil (by rw [hphase]; rfl)
      by_cases hcanceled : s.series.canceled = true
      · refine drops_of_canceled (by simp) (.inr ?_) hcanceled
        simp only [hcanceled]
        rfl
      · refine drops_of_nil (by simp) ?_ hdropped
        simp only [Bool.not_eq_true _ ▸ hcanceled]
        rfl
  | popRun task series hphase hpop => exact drops_of_nil (by simp) rfl (hnil (by rw [hphase]; rfl))
  | popDrop task series hphase hpop =>
      refine drops_of_canceled (by simp) (.inr rfl) ?_
      rw [hpop.sameFlags.canceled]
      exact h.canceled (by rw [hphase]; rfl)
  | popEnd canceled series hphase hpop =>
      refine ⟨fun hnew => ?_, fun hdrops => ?_, fun _ => .inl rfl, ?_⟩
      · cases hnew
      · cases hdrops
      · simp only [hpop.finish_eq]
        exact h.reason
  | deleteNext out task series hphase hpop =>
      refine drops_of_canceled (by simp) (.inr rfl) ?_
      rw [hpop.sameFlags.canceled]
      exact h.canceled (by rw [hphase]; rfl)
  | deleteLast out series hphase hpop =>
      refine drops_of_canceled (by simp) (.inl rfl) ?_
      simp only [hpop.finish_eq]
      exact h.canceled (by rw [hphase]; rfl)

structure State.Kept (s : State T) : Prop where
  sound : s.Sound
  supported : Supported s.Live s.waiting
  ends : s.Ends
  drops : s.Drops

theorem kept_create (first : T) (last : Option T) (inParallel callback : Bool) :
    (create first last inParallel callback).Kept := by
  refine ⟨sound_create first last inParallel callback, trivial, ⟨fun _ => ⟨rfl, rfl⟩, fun hended => ?_⟩,
    ⟨fun _ => rfl, fun hdrops => ?_, fun hne => absurd rfl hne, fun hne => absurd rfl hne⟩⟩
  · cases hended
  · cases hdrops

variable [DecidableEq T] {first : T} {last : Option T} {inParallel callback : Bool} {turns : List (Turn T)}

theorem kept_of_step {turn : Turn T} (h : s.Kept) (hstep : step s turn = some t) : t.Kept := by
  obtain ⟨he, hsound⟩ := effect_of_step h.sound hstep
  exact ⟨hsound, supported_of_effect he h.supported, ends_of_effect he h.ends, drops_of_effect he h.drops⟩

omit [DecidableEq T] in
theorem account_create (first : T) (last : Option T) (inParallel callback : Bool) :
    (create first last inParallel callback).account = first :: last.toList := by
  have hdeque : (create first last inParallel callback).series.deque = TaskDeque.create last inParallel callback :=
    (holds_create last inParallel callback).deque_eq
  rw [State.account, State.present, hdeque]
  rfl

theorem kept_of_run (hrun : run first last inParallel callback turns = some s) :
    s.Kept ∧ s.account.Perm (turns.flatMap Turn.added ++ first :: last.toList) := by
  have hcreate := kept_create first last inParallel callback
  obtain ⟨hs, hperm⟩ := Replay.replay_relates (P := State.Kept)
    (R := fun turns s t => t.account.Perm (turns.flatMap Turn.added ++ s.account))
    (fun s i t h hstep => kept_of_step h hstep) (fun s => List.Perm.refl _) (fun turn turns s t u h hstep hrel => by
      have hone := account_of_effect (effect_of_step h.sound hstep).1
      calc
        u.account.Perm (turns.flatMap Turn.added ++ t.account) := hrel
        List.Perm _ (turns.flatMap Turn.added ++ (turn.added ++ s.account)) := hone.append_left _
        List.Perm _ (turn.added ++ (turns.flatMap Turn.added ++ s.account)) := List.perm_append_comm_assoc _ _ _
        List.Perm _ ((turn :: turns).flatMap Turn.added ++ s.account) := by
          rw [List.flatMap_cons, List.append_assoc])
    hcreate hrun
  rw [account_create] at hperm
  exact ⟨hs, hperm⟩

/-- Every task of a series is in one place, and the series goes on until it has found no task. -/
theorem tasks_of_run (hrun : run first last inParallel callback turns = some s) :
    (s.finished ++ s.dropped ++ s.forgotten ++ s.held
        ++ (s.phase.tasks s.first ++ (s.series.tasks ++ s.series.last.toList))).Perm
      (turns.flatMap Turn.added ++ first :: last.toList)
      ∧ (s.phase ≠ .ended → s.callbacks = 0 ∧ s.series.gone = false) := by
  obtain ⟨hs, hperm⟩ := kept_of_run hrun
  exact ⟨hperm, hs.ends.before⟩

/-- A router task is dropped by a series that is canceled meanwhile, and the client task that it holds is
never deleted. -/
theorem tasks_of_run_router : ∃ s,
    run 1 (some 9) false true [.start, .pushBack 2, .cancel, .route 5, .readCanceled, .popTask, .delete] = some s
      ∧ s.dropped = [5] ∧ s.held = [1] ∧ s.phase = .dropping 2
      ∧ (s.finished ++ s.dropped ++ s.forgotten ++ s.held
          ++ (s.phase.tasks s.first ++ (s.series.tasks ++ s.series.last.toList))).Perm [2, 5, 1, 9]
      ∧ s.callbacks = 0 := by
  obtain ⟨s, hrun⟩ : ∃ s, run 1 (some 9) false true
      [.start, .pushBack 2, .cancel, .route 5, .readCanceled, .popTask, .delete] = some s := ⟨_, rfl⟩
  have hplaces : s.dropped = [5] ∧ s.held = [1] ∧ s.phase = .dropping 2 := by
    obtain rfl := Option.some.inj hrun
    exact ⟨rfl, rfl, rfl⟩
  obtain ⟨hperm, hbefore⟩ := tasks_of_run hrun
  refine ⟨s, hrun, hplaces.1, hplaces.2.1, hplaces.2.2, hperm, (hbefore ?_).1⟩
  rw [hplaces.2.2]
  simp

/-- At the end of a series every task has been deleted once, but for the client tasks that were done without a target,
and those whose helper was dropped. -/
theorem ended_of_run (hrun : run first last inParallel callback turns = some s) (hended : s.phase = .ended) :
    (s.finished ++ s.dropped ++ s.forgotten ++ s.held).Perm (turns.flatMap Turn.added ++ first :: last.toList)
      ∧ (s.dropped = [] → s.held = [])
      ∧ (s.dropped ≠ [] → s.series.canceled = true ∨ s.dispatched = [])
      ∧ s.callbacks = (if s.series.callback = true then 1 else 0)
      ∧ s.series.gone = !s.series.inParallel := by
  obtain ⟨hs, hperm⟩ := kept_of_run hrun
  obtain ⟨hleft, hcallbacks, hgone⟩ := hs.ends.after hended
  have hpresent : s.present = [] := by
    rw [State.present, hended, hleft]
    rfl
  refine ⟨?_, fun hdropped => ?_, hs.drops.reason, hcallbacks, hgone⟩
  · rwa [State.account, hpresent, List.append_nil] at hperm
  · have hnil : s.waiting = [] := by
      apply hs.supported.eq_nil
      intro x
      simp [State.Live, hpresent, hdropped]
    rw [State.held, hnil]
    rfl

theorem ended_of_run_lookup : ∃ s,
    run 1 (some 9) false true [.start, .pushBack 2, .route 5, .readCanceled, .popTask, .route 6, .readCanceled,
      .popTask, .resume 5 1, .abandon 6 5, .finish, .readCanceled, .popTask, .finish, .readCanceled, .popTask, .cancel,
      .finish, .readCanceled, .popTask, .delete] = some s
      ∧ s.finished = [5, 6, 1, 2] ∧ s.dropped = [9]
      ∧ (s.finished ++ s.dropped ++ s.forgotten ++ s.held).Perm [2, 5, 6, 1, 9]
      ∧ s.series.canceled = true ∧ s.series.gone = true := by
  obtain ⟨s, hrun⟩ : ∃ s, run 1 (some 9) false true [.start, .pushBack 2, .route 5, .readCanceled, .popTask,
      .route 6, .readCanceled, .popTask, .resume 5 1, .abandon 6 5, .finish, .readCanceled, .popTask, .finish,
      .readCanceled, .popTask, .cancel, .finish, .readCanceled, .popTask, .delete] = some s := ⟨_, rfl⟩
  have hends : s.finished = [5, 6, 1, 2] ∧ s.dropped = [9] ∧ s.dispatched ≠ [] ∧ s.series.inParallel = false
      ∧ s.phase = .ended := by
    obtain rfl := Option.some.inj hrun
    exact ⟨rfl, rfl, by decide, rfl, rfl⟩
  obtain ⟨hfinished, hdropped, hdispatched, hparallel, hphase⟩ := hends
  obtain ⟨hperm, -, hreason, -, hgone⟩ := ended_of_run hrun hphase
  refine ⟨s, hrun, hfinished, hdropped, hperm, ?_, ?_⟩
  · exact (hreason (by rw [hdropped]; simp)).resolve_right hdispatched
  · rw [hgone, hparallel]
    rfl

end WorkflowModel.Factory.SeriesRun
