import WorkflowModel.Lib.ListSet
import WorkflowModel.Lib.Progress
import WorkflowModel.Proof.JoinProgress

/-!
# Every parallel task is done once

The ledger of a state counts the calls of its threads, its pending tasks and its log. A step of a thread is one of
the exchanges that keep the ledger balanced, whatever the other threads are in.
-/

namespace WorkflowModel.Kernel.SubTask

open TaskTree

variable {tree : TaskTree} {s s' : State} {t u p i : Nat} {l : List Nat} {q : Nat × Nat}
  {history : List (State × Turn)}

def Frame.tokens : Frame → List Token
  | .call t => [.call t]
  | .loop p i => [.loop p i]
  | .finish t => [.finish t]
  | .handOver t _ _ => [.handOver t]
  | .leave _ entry => entry.toList.map .leave

def Entry.tokens : Entry → List Token
  | .dispatched t => [.dispatched t]
  | .done t => [.done t]
  | .left entry => entry.toList.map .left

namespace State

def frames (s : State) : List Frame := s.threads.flatten

def tokens (s : State) : List Token :=
  s.frames.flatMap Frame.tokens ++ (s.log.flatMap Entry.tokens ++ s.pending.map .pending)

def ledger (s : State) : Ledger := { tally := Ledger.worth s.tokens, nleft := s.nleft }

end State

/-- The frame `f` is replaced by `fs`, `es` is added to the log and `ps` to the pending tasks. -/
structure Replaced (s s' : State) (f : Frame) (fs : List Frame) (es : List Entry) (ps : List Nat) : Prop where
  frames : ∃ others, s.frames.Perm (f :: others) ∧ s'.frames.Perm (fs ++ others)
  log : s'.log = s.log ++ es
  pending : s'.pending = ps ++ s.pending

theorem frames_set {threads : List (List Frame)} {f : Frame} {rest : List Frame} (fs : List Frame)
    (hthread : threads[i]? = some (f :: rest)) :
    ∃ others, threads.flatten.Perm (f :: others) ∧ (threads.set i (fs ++ rest)).flatten.Perm (fs ++ others) := by
  obtain ⟨others, hold, hnew⟩ := ListSet.exists_others hthread
  refine ⟨rest ++ others.flatten, hold.flatten, ?_⟩
  rw [← List.append_assoc]
  exact (hnew (fs ++ rest)).flatten

section

variable {f : Frame} {fs : List Frame} {es : List Entry} {ps : List Nat}

theorem Replaced.mem_old (h : Replaced s s' f fs es ps) : f ∈ s.frames := by
  obtain ⟨others, hold, -⟩ := h.frames
  exact hold.mem_iff.2 List.mem_cons_self

theorem Replaced.mem (h : Replaced s s' f fs es ps) {g : Frame} (hg : g ∈ s'.frames) : g ∈ fs ∨ g ∈ s.frames := by
  obtain ⟨others, hold, hnew⟩ := h.frames
  rcases List.mem_append.1 (hnew.mem_iff.1 hg) with hin | hin
  · exact Or.inl hin
  · exact Or.inr (hold.mem_iff.2 (List.mem_cons_of_mem _ hin))

theorem Replaced.exchanged (h : Replaced s s' f fs es ps) (plus : List Token)
    (hplus : plus.Perm (fs.flatMap Frame.tokens ++ es.flatMap Entry.tokens ++ ps.map .pending)) :
    s.ledger.Exchanged s'.ledger f.tokens plus := by
  intro k
  obtain ⟨others, hold, hnew⟩ := h.frames
  have hframes := (hold.flatMap_right Frame.tokens).countP_eq k.counts
  have hframes' := (hnew.flatMap_right Frame.tokens).countP_eq k.counts
  have hplus' := hplus.countP_eq k.counts
  simp only [State.ledger, State.tokens, Ledger.worth, h.log, h.pending, List.countP_append, List.flatMap_append,
    List.flatMap_cons, List.map_append] at hframes hframes' hplus' ⊢
  omega

end

theorem tally_pos {f : Frame} {k : Token} (hf : f ∈ s.frames) (hk : k ∈ f.tokens) : 0 < s.ledger.tally k := by
  apply List.countP_pos_iff.2
  refine ⟨k, ?_, ?_⟩
  · exact List.mem_append_left _ (List.mem_flatMap.2 ⟨f, hf, hk⟩)
  · cases k <;> simp [Token.counts]

theorem worth_log_eq_zero {k : Token} (hk : ∀ t q, k ≠ .dispatched t ∧ k ≠ .done t ∧ k ≠ .left q) (es : List Entry) :
    Ledger.worth (es.flatMap Entry.tokens) k = 0 := by
  apply List.countP_eq_zero.2
  intro k' hk'
  obtain ⟨e, -, he⟩ := List.mem_flatMap.1 hk'
  rcases e with t | t | (_ | q) <;> simp only [Entry.tokens, Option.toList_none, Option.toList_some, List.map_nil,
    List.map_singleton, List.mem_singleton, List.not_mem_nil] at he
  all_goals
    subst he
    cases k <;> simp_all [Token.counts]

theorem worth_log_done (es : List Entry) (t : Nat) :
    Ledger.worth (es.flatMap Entry.tokens) (.done t) = es.count (.done t) := by
  induction es with
  | nil => rfl
  | cons e es ih =>
      simp only [Ledger.worth] at ih ⊢
      rcases e with u | u | (_ | q) <;>
        simp [Entry.tokens, Token.counts, List.countP_cons, List.count_cons, ih, Nat.add_comm]

theorem worth_frames_done (fs : List Frame) (t : Nat) : Ledger.worth (fs.flatMap Frame.tokens) (.done t) = 0 := by
  induction fs with
  | nil => rfl
  | cons f fs ih =>
      simp only [Ledger.worth] at ih ⊢
      rcases f with t | ⟨p, i⟩ | t | ⟨t, parent, entry⟩ | ⟨parent, _ | q⟩ <;>
        simp [Frame.tokens, Token.counts, ih]

theorem tally_done (s : State) (t : Nat) : s.ledger.tally (.done t) = s.log.count (.done t) := by
  have hpending : (s.pending.map Token.pending).countP (Token.done t).counts = 0 := by
    rw [List.countP_eq_zero]
    intro k hk
    obtain ⟨u, -, rfl⟩ := List.mem_map.1 hk
    simp [Token.counts]
  calc
    s.ledger.tally (.done t)
        = Ledger.worth (s.frames.flatMap Frame.tokens) (.done t)
          + (Ledger.worth (s.log.flatMap Entry.tokens) (.done t)
            + (s.pending.map Token.pending).countP (Token.done t).counts) := by
          simp only [State.ledger, State.tokens, Ledger.worth, List.countP_append]
    _ = s.log.count (.done t) := by rw [worth_frames_done, worth_log_done, hpending, Nat.zero_add, Nat.add_zero]

theorem quiet_of_idle (hframes : s.frames = []) (hpending : s.pending = []) : s.ledger.Quiet := by
  intro t q i
  simp only [State.ledger, State.tokens, hframes, hpending, List.flatMap_nil, List.map_nil, List.nil_append,
    List.append_nil]
  refine ⟨?_, ?_, ?_, ?_, ?_, ?_⟩ <;> exact worth_log_eq_zero (by simp) s.log

/-- What a call may refer to. -/
def Frame.Ok (tree : TaskTree) : Frame → Prop
  | .call t => tree.InTree t
  | .loop p i => tree.InTree p ∧ ∃ l, tree.subtasks p = some l ∧ i < l.length
  | .finish t => tree.InTree t
  | .handOver t parent entry => tree.InTree t ∧ (∃ u, tree.next u = some t) ∧ entry = tree.place t
      ∧ parent = (tree.place t).map Prod.fst
  | .leave parent entry => ∃ i t, entry = some (parent, i) ∧ tree.Chain (parent, i) t ∧ tree.InTree parent

/-- The chain at each position of `p` has ended, so its last task is done, and `done` of this one returned `NULL`. -/
def Ended (tree : TaskTree) (log : List Entry) (p : Nat) : Prop :=
  ∀ i t, tree.Chain (p, i) t → Entry.done t ∈ log

structure Sound (tree : TaskTree) (s : State) : Prop where
  balanced : s.ledger.Balanced tree
  frames : ∀ f ∈ s.frames, f.Ok tree
  pending : ∀ t ∈ s.pending, tree.InTree t ∧ tree.subtasks t = none
  fields : ∀ t, tree.InTree t → 0 < s.ledger.tally (.call t) + s.ledger.tally (.dispatched t) →
    s.parent t = (tree.place t).map Prod.fst ∧ s.entry t = tree.place t
  subtasks : ∀ (p i t : Nat) (l : List Nat), tree.InTree p → tree.subtasks p = some l → l[i]? = some t →
    s.ledger.tally (.call t) + s.ledger.tally (.dispatched t) = 0 → (s.subtasks p)[i]? = some t
  ended : ∀ before after p, s.log = before ++ .done p :: after → Ended tree before p

theorem sound_start (tree : TaskTree) : Sound tree tree.start := by
  have htokens : tree.start.tokens = [.call tree.root] := rfl
  have hzero : ∀ k : Token, tree.start.ledger.tally k = if k.counts (.call tree.root) = true then 1 else 0 := by
    intro k
    simp only [State.ledger, htokens, Ledger.worth, List.countP_singleton]
  refine ⟨?_, ?_, ?_, ?_, ?_, ?_⟩
  · constructor
    · simp [hzero, Token.counts]
    · intro p i t l hl ht
      have hne : tree.root ≠ t := by
        rintro rfl
        have := tree.place_child p i _ l hl ht
        rw [tree.place_root] at this
        cases this
      simp [hzero, Token.counts, hne]
    · intro t u hu
      have hne : tree.root ≠ u := by
        rintro rfl
        exact tree.next_ne_root t hu
      simp [hzero, Token.counts, hne]
    · simp [hzero, Token.counts]
    · simp [hzero, Token.counts]
    · simp [hzero, Token.counts]
    · simp [hzero, Token.counts]
  · intro f hf
    rw [show tree.start.frames = [.call tree.root] from rfl, List.mem_singleton] at hf
    subst hf
    exact .root
  · simp [TaskTree.start]
  · intro t _ hpos
    have heq : tree.root = t := by
      by_contra hne
      simp [hzero, Token.counts, hne] at hpos
    subst heq
    rw [tree.place_root]
    exact ⟨rfl, rfl⟩
  · intro p i t l _ hl ht _
    simp [TaskTree.start, hl, ht]
  · intro before after p hlog
    simp [TaskTree.start] at hlog

def State.called (s : State) (t : Nat) : Nat := s.ledger.tally (.call t) + s.ledger.tally (.dispatched t)

theorem Ledger.Exchanged.called {minus plus : List Token} (h : s.ledger.Exchanged s'.ledger minus plus) (u : Nat) :
    s'.called u + Ledger.worth minus (.call u) + Ledger.worth minus (.dispatched u)
      = s.called u + Ledger.worth plus (.call u) + Ledger.worth plus (.dispatched u) := by
  have hcall := h (.call u)
  have hdispatched := h (.dispatched u)
  simp only [State.called]
  omega

theorem ended_append {log : List Entry} {e : Entry}
    (h : ∀ before after p, log = before ++ .done p :: after → Ended tree before p)
    (he : ∀ p, e = .done p → Ended tree log p) :
    ∀ before after p, log ++ [e] = before ++ .done p :: after → Ended tree before p := by
  intro before after p hlog
  rcases List.eq_nil_or_concat after with rfl | ⟨after', x, rfl⟩
  · obtain ⟨rfl, hsame⟩ := List.append_inj' hlog rfl
    exact he p (List.singleton_inj.1 hsame)
  · rw [List.concat_eq_append, ← List.cons_append, ← List.append_assoc] at hlog
    obtain ⟨hlog, -⟩ := List.append_inj' hlog rfl
    exact h before after' p hlog

theorem Sound.ended_of_finish (h : Sound tree s) (hin : Frame.finish p ∈ s.frames) : Ended tree s.log p := by
  intro i t hchain
  obtain ⟨l, first, hl, hfirst, hleads⟩ := id hchain
  have hfinish : 0 < s.ledger.tally (.finish p) := tally_pos hin (by simp [Frame.tokens])
  have := h.balanced.ended (h.frames _ hin) hl hfinish hchain
  rw [tally_done] at this
  exact List.count_pos_iff.1 this

/-- A step that does not write to the tasks. -/
theorem Sound.keep {f : Frame} {fs : List Frame} {es : List Entry} {ps : List Nat} (h : Sound tree s)
    (hstep : Replaced s s' f fs es ps) (hbalanced : s'.ledger.Balanced tree) (hok : ∀ g ∈ fs, g.Ok tree)
    (hps : ∀ t ∈ ps, tree.InTree t ∧ tree.subtasks t = none) (hcalled : ∀ u, s'.called u = s.called u)
    (hparent : s'.parent = s.parent) (hentry : s'.entry = s.entry) (hsubtasks : s'.subtasks = s.subtasks)
    (hended : ∀ before after p, s'.log = before ++ .done p :: after → Ended tree before p) : Sound tree s' := by
  refine ⟨hbalanced, ?_, ?_, ?_, ?_, hended⟩
  · intro g hg
    rcases hstep.mem hg with hin | hin
    · exact hok g hin
    · exact h.frames g hin
  · intro t ht
    rw [hstep.pending] at ht
    rcases List.mem_append.1 ht with hin | hin
    · exact hps t hin
    · exact h.pending t hin
  · intro u hu hpos
    have hsame := hcalled u
    simp only [State.called] at hsame
    rw [hparent, hentry]
    exact h.fields u hu (by omega)
  · intro p i u l hp hl hu hzero
    have hsame := hcalled u
    simp only [State.called] at hsame
    rw [hsubtasks]
    exact h.subtasks p i u l hp hl hu (by omega)

section

attribute [local simp] Ledger.worth Token.counts List.countP_cons Frame.tokens Entry.tokens

theorem Sound.call {t : Nat} {later : Bool} (h : Sound tree s)
    (hstep : Replaced s s' (.call t) (dispatch tree s t later).2 [.dispatched t]
      (if tree.subtasks t = none ∧ later = true then [t] else []))
    (hnleft : s'.nleft = (dispatch tree s t later).1.nleft)
    (hparent : s'.parent = s.parent) (hentry : s'.entry = s.entry) (hsubtasks : s'.subtasks = s.subtasks) :
    Sound tree s' ∧ s.ledger.Advanced tree s'.ledger := by
  have htree : tree.InTree t := h.frames _ hstep.mem_old
  have hended : ∀ before after p, s'.log = before ++ .done p :: after → Ended tree before p := by
    rw [hstep.log]
    exact ended_append h.ended (by simp)
  rcases hl : tree.subtasks t with _ | l
  · have hend : ∀ k, (k = .finish t ∨ k = .pending t) → s.ledger.Exchanged s'.ledger [.call t] [k, .dispatched t] →
        s'.ledger.Balanced tree ∧ (∀ u, s'.called u = s.called u) ∧ s.ledger.Advanced tree s'.ledger := by
      intro k hk hchange
      refine ⟨h.balanced.call_leaf hl hk hchange ?_, ?_, hchange.advanced_call htree⟩
      · simp only [dispatch, hl] at hnleft
        split at hnleft <;> exact hnleft
      · intro u
        have := hchange.called u
        rcases hk with rfl | rfl <;> simpa using this
    cases later with
    | true =>
        simp only [dispatch, hl, and_self, if_true] at hstep
        obtain ⟨hbalanced, hcalled, hadvanced⟩ := hend (.pending t) (Or.inr rfl)
          (hstep.exchanged [.pending t, .dispatched t] (List.Perm.swap _ _ _))
        refine ⟨?_, hadvanced⟩
        apply h.keep hstep hbalanced _ _ hcalled hparent hentry hsubtasks hended
        · simp
        · simpa using ⟨htree, hl⟩
    | false =>
        simp only [dispatch, hl, Bool.false_eq_true, and_false, if_false] at hstep
        obtain ⟨hbalanced, hcalled, hadvanced⟩ := hend (.finish t) (Or.inl rfl)
          (hstep.exchanged [.finish t, .dispatched t] (List.Perm.refl _))
        refine ⟨?_, hadvanced⟩
        apply h.keep hstep hbalanced _ (by simp) hcalled hparent hentry hsubtasks hended
        intro g hg
        rw [List.mem_singleton] at hg
        subst hg
        exact htree
  · have hpos : 0 < s.ledger.tally (.call t) := tally_pos hstep.mem_old (by simp)
    simp only [hl, reduceCtorEq, false_and, if_false] at hstep
    have hframes : (dispatch tree s t later).2 = if l.length ≠ 0 then [.loop t 0] else [.finish t] := by
      simp only [dispatch, hl]
      split <;> rfl
    have hchange := hstep.exchanged [if l.length ≠ 0 then .loop t 0 else .finish t, .dispatched t] (by
      rw [hframes]
      split <;> exact List.Perm.refl _)
    have hbalanced := h.balanced.call_parallel hl htree hpos hchange (by
      simp only [dispatch, hl] at hnleft
      split at hnleft <;> exact hnleft)
    refine ⟨?_, hchange.advanced_call htree⟩
    apply h.keep hstep hbalanced _ _ _ hparent hentry hsubtasks hended
    · intro g hg
      rw [hframes] at hg
      split at hg
      · rw [List.mem_singleton] at hg
        subst hg
        exact ⟨htree, l, hl, by omega⟩
      · rw [List.mem_singleton] at hg
        subst hg
        exact htree
    · simp
    · intro u
      have := hchange.called u
      split at this <;> simpa using this

theorem Sound.finish {t : Nat} {fs : List Frame} (h : Sound tree s)
    (hfs : fs = match tree.next t with
      | some cur => [.handOver cur (s.parent t) (s.entry t)]
      | none => match s.parent t with
        | some parent => [.leave parent (s.entry t)]
        | none => [])
    (hstep : Replaced s s' (.finish t) fs [.done t] []) (hnleft : s'.nleft = s.nleft) (hparent : s'.parent = s.parent)
    (hentry : s'.entry = s.entry) (hsubtasks : s'.subtasks = s.subtasks) :
    Sound tree s' ∧ s.ledger.Advanced tree s'.ledger := by
  have htree : tree.InTree t := h.frames _ hstep.mem_old
  have hdispatched : 0 < s.ledger.tally (.dispatched t) := by
    have hpos : 0 < s.ledger.tally (.finish t) := tally_pos hstep.mem_old (by simp)
    rcases hl : tree.subtasks t with _ | l
    · have := h.balanced.leaf t hl
      omega
    · have := h.balanced.parallel t l hl
      split at this <;> omega
  obtain ⟨hpar, hent⟩ := h.fields t htree (by omega)
  have hended : ∀ before after p, s'.log = before ++ .done p :: after → Ended tree before p := by
    rw [hstep.log]
    apply ended_append h.ended
    rintro p hsame
    cases hsame
    exact h.ended_of_finish hstep.mem_old
  rw [hpar, hent] at hfs
  rcases hnext : tree.next t with _ | cur
  · rcases hplace : tree.place t with _ | q
    · simp only [hnext, hplace, Option.map_none] at hfs
      subst hfs
      have hchange := hstep.exchanged [.done t] (List.Perm.refl _)
      have hbalanced := h.balanced.finish_last hnext htree hplace hchange hnleft
      refine ⟨?_, hchange.advanced_finish (by simp) htree⟩
      apply h.keep hstep hbalanced (by simp) (by simp) _ hparent hentry hsubtasks hended
      intro u
      simpa using hchange.called u
    · simp only [hnext, hplace, Option.map_some] at hfs
      subst hfs
      have hchange := hstep.exchanged [.done t, .leave q] (List.Perm.swap _ _ _)
      have hbalanced := h.balanced.finish_last hnext htree hplace hchange hnleft
      refine ⟨?_, hchange.advanced_finish (by simp) htree⟩
      apply h.keep hstep hbalanced _ (by simp) _ hparent hentry hsubtasks hended
      · intro g hg
        rw [List.mem_singleton] at hg
        subst hg
        obtain ⟨hchain, hq⟩ := htree.chain hplace
        exact ⟨q.2, t, rfl, hchain, hq⟩
      · intro u
        simpa using hchange.called u
  · simp only [hnext] at hfs
    subst hfs
    have hchange := hstep.exchanged [.handOver cur, .done t] (List.Perm.refl _)
    have hbalanced := h.balanced.finish_next hnext hchange hnleft
    refine ⟨?_, hchange.advanced_finish (by simp) htree⟩
    apply h.keep hstep hbalanced _ (by simp) _ hparent hentry hsubtasks hended
    · intro g hg
      rw [List.mem_singleton] at hg
      subst hg
      refine ⟨htree.next hnext, ⟨t, hnext⟩, ?_, ?_⟩
      · rw [tree.place_next t cur hnext]
      · rw [tree.place_next t cur hnext]
    · intro u
      simpa using hchange.called u

theorem Sound.leave {entry : Option (Nat × Nat)} (h : Sound tree s)
    (hstep : Replaced s s' (.leave p entry) (if s.nleft p - 1 = 0 then [.finish p] else []) [.left entry] [])
    (hnleft : s'.nleft = Function.update s.nleft p (s.nleft p - 1)) (hparent : s'.parent = s.parent)
    (hentry : s'.entry = s.entry) (hsubtasks : s'.subtasks = s.subtasks) :
    Sound tree s' ∧ s.ledger.Advanced tree s'.ledger := by
  obtain ⟨i, t, rfl, hchain, hp⟩ := h.frames _ hstep.mem_old
  obtain ⟨l, first, hl, hfirst, -⟩ := id hchain
  have hpos : 0 < s.ledger.tally (.leave (p, i)) := tally_pos hstep.mem_old (by simp)
  have hchange := hstep.exchanged (.left (p, i) :: if s.nleft p - 1 = 0 then [.finish p] else []) (by
    split
    · exact List.Perm.swap _ _ _
    · exact List.Perm.refl _)
  have hi := (List.getElem?_eq_some_iff.1 hfirst).1
  have hbalanced := (h.balanced.leave hp hl hi hpos hchange hnleft).1
  refine ⟨?_, hchange.advanced_leave hchain hp⟩
  apply h.keep hstep hbalanced _ (by simp) _ hparent hentry hsubtasks
  · rw [hstep.log]
    exact ended_append h.ended (by simp)
  · intro g hg
    split at hg
    · rw [List.mem_singleton] at hg
      subst hg
      exact hp
    · simp at hg
  · intro u
    have := hchange.called u
    split at this <;> simpa using this

theorem Sound.loop_task (h : Sound tree s) (hin : Frame.loop p i ∈ s.frames) :
    ∃ l t, tree.InTree p ∧ tree.subtasks p = some l ∧ l[i]? = some t ∧ (s.subtasks p)[i]? = some t := by
  obtain ⟨hp, l, hl, hi⟩ := h.frames _ hin
  have ht : l[i]? = some l[i] := List.getElem?_eq_getElem hi
  refine ⟨l, l[i], hp, hl, ht, h.subtasks p i l[i] l hp hl ht ?_⟩
  have hpos : 0 < s.ledger.tally (.loop p i) := tally_pos hin (by simp)
  have := h.balanced.child p i l[i] l hl ht
  have := h.balanced.call_le_one hp
  omega

theorem Sound.loop {l : List Nat} {t : Nat} (h : Sound tree s) (hl : tree.subtasks p = some l) (ht : l[i]? = some t)
    (hstep : Replaced s s' (.loop p i) (.call t :: if i + 1 ≠ l.length then [.loop p (i + 1)] else []) [] [])
    (hnleft : s'.nleft = s.nleft) (hparent : s'.parent = Function.update s.parent t (some p))
    (hentry : s'.entry = Function.update s.entry t (some (p, i))) (hsubtasks : s'.subtasks = s.subtasks) :
    Sound tree s' ∧ s.ledger.Advanced tree s'.ledger := by
  obtain ⟨hp, -⟩ := h.frames _ hstep.mem_old
  have htree := hp.child hl (List.mem_of_getElem? ht)
  have hchange := hstep.exchanged (.call t :: if i + 1 ≠ l.length then [.loop p (i + 1)] else []) (by
    split <;> exact List.Perm.refl _)
  have hcalled : ∀ u, s'.called u = s.called u + if t = u then 1 else 0 := by
    intro u
    have := hchange.called u
    split at this <;> simpa using this
  refine ⟨⟨h.balanced.loop hl ht hchange hnleft, ?_, ?_, ?_, ?_, ?_⟩, hchange.advanced_loop htree⟩
  · intro g hg
    rcases hstep.mem hg with hin | hin
    · rcases List.mem_cons.1 hin with rfl | hin
      · exact htree
      · split at hin
        · rw [List.mem_singleton] at hin
          subst hin
          have hi := (List.getElem?_eq_some_iff.1 ht).1
          exact ⟨hp, l, hl, by omega⟩
        · simp at hin
    · exact h.frames g hin
  · rw [hstep.pending]
    exact h.pending
  · intro u hu hpos
    have hsame := hcalled u
    simp only [State.called] at hsame
    rw [hparent, hentry]
    by_cases htu : u = t
    · subst htu
      rw [Function.update_self, Function.update_self, tree.place_child p i u l hl ht]
      exact ⟨rfl, rfl⟩
    · rw [Function.update_of_ne htu, Function.update_of_ne htu]
      rw [if_neg (Ne.symm htu)] at hsame
      exact h.fields u hu (by omega)
  · intro p' j u l' hp' hl' hu hzero
    have hsame := hcalled u
    simp only [State.called] at hsame
    rw [hsubtasks]
    exact h.subtasks p' j u l' hp' hl' hu (by omega)
  · rw [hstep.log, List.append_nil]
    exact h.ended

theorem Sound.handOver {cur : Nat} {parent : Option Nat} {entry : Option (Nat × Nat)} (h : Sound tree s)
    (hstep : Replaced s s' (.handOver cur parent entry) [.call cur] [] []) (hnleft : s'.nleft = s.nleft)
    (hparent : s'.parent = Function.update s.parent cur parent)
    (hentry : s'.entry = Function.update s.entry cur entry)
    (hsubtasks : ∀ p j, (∀ i, entry = some (p, i) → i ≠ j) → (s'.subtasks p)[j]? = (s.subtasks p)[j]?) :
    Sound tree s' ∧ s.ledger.Advanced tree s'.ledger := by
  obtain ⟨htree, ⟨before, hbefore⟩, rfl, rfl⟩ := h.frames _ hstep.mem_old
  have hchange := hstep.exchanged [.call cur] (List.Perm.refl _)
  have hpos : 0 < s.ledger.tally (.handOver cur) := tally_pos hstep.mem_old (by simp)
  have hcalled : ∀ u, s'.called u = s.called u + if cur = u then 1 else 0 := by
    intro u
    simpa using hchange.called u
  refine ⟨⟨h.balanced.handOver hbefore hchange hnleft, ?_, ?_, ?_, ?_, ?_⟩, hchange.advanced_handOver htree⟩
  · intro g hg
    rcases hstep.mem hg with hin | hin
    · rw [List.mem_singleton] at hin
      subst hin
      exact htree
    · exact h.frames g hin
  · rw [hstep.pending]
    exact h.pending
  · intro u hu hpos
    have hsame := hcalled u
    simp only [State.called] at hsame
    rw [hparent, hentry]
    by_cases htu : u = cur
    · subst htu
      rw [Function.update_self, Function.update_self]
      exact ⟨rfl, rfl⟩
    · rw [Function.update_of_ne htu, Function.update_of_ne htu]
      rw [if_neg (Ne.symm htu)] at hsame
      exact h.fields u hu (by omega)
  · intro p j u l hp hl hu hzero
    have hsame := hcalled u
    simp only [State.called] at hsame
    have hkept := h.subtasks p j u l hp hl hu (by omega)
    rw [hsubtasks p j, hkept]
    -- the first task of a position where a task takes over has been dispatched
    rintro i hplace rfl
    have hchain := (htree.chain hplace).1.before hbefore
    have := h.balanced.next before cur hbefore
    have := h.balanced.done_le before
    have := (h.balanced.call_le_of_chain (q := (p, i)) hl hu hchain).1
    omega
  · rw [hstep.log, List.append_nil]
    exact h.ended

theorem Sound.complete {t : Nat} (h : Sound tree s) (ht : t ∈ s.pending)
    (hframes : s'.frames = s.frames ++ [.finish t]) (hpending : s'.pending = s.pending.erase t)
    (hlog : s'.log = s.log) (hnleft : s'.nleft = s.nleft) (hparent : s'.parent = s.parent)
    (hentry : s'.entry = s.entry) (hsubtasks : s'.subtasks = s.subtasks) :
    Sound tree s' ∧ s.ledger.Advanced tree s'.ledger := by
  obtain ⟨htree, hl⟩ := h.pending t ht
  have hchange : s.ledger.Exchanged s'.ledger [.pending t] [.finish t] := by
    intro k
    have hperm := ((List.perm_cons_erase ht).map Token.pending).countP_eq k.counts
    simp only [State.ledger, State.tokens, Ledger.worth, hframes, hlog, hpending, List.flatMap_append,
      List.countP_append, List.map_cons, List.countP_cons, List.flatMap_cons, List.flatMap_nil, Frame.tokens,
      List.countP_nil] at hperm ⊢
    omega
  have hcalled : ∀ u, s'.called u = s.called u := by
    intro u
    simpa using hchange.called u
  refine ⟨⟨h.balanced.complete hl hchange hnleft, ?_, ?_, ?_, ?_, ?_⟩, hchange.advanced_complete htree⟩
  · intro g hg
    rw [hframes] at hg
    rcases List.mem_append.1 hg with hin | hin
    · exact h.frames g hin
    · rw [List.mem_singleton] at hin
      subst hin
      exact htree
  · intro u hu
    rw [hpending] at hu
    exact h.pending u (List.mem_of_mem_erase hu)
  · intro u hu hpos
    have hsame := hcalled u
    simp only [State.called] at hsame
    rw [hparent, hentry]
    exact h.fields u hu (by omega)
  · intro p i u l hp hl hu hzero
    have hsame := hcalled u
    simp only [State.called] at hsame
    rw [hsubtasks]
    exact h.subtasks p i u l hp hl hu (by omega)
  · rw [hlog]
    exact h.ended

end

theorem setEntry_getElem? (s : State) (entry : Option (Nat × Nat)) (task p j : Nat)
    (hne : ∀ i, entry = some (p, i) → i ≠ j) : ((s.setEntry entry task).subtasks p)[j]? = (s.subtasks p)[j]? := by
  rcases entry with _ | ⟨p', i⟩
  · rfl
  · by_cases hp : p = p'
    · subst hp
      simp only [State.setEntry, Function.update_self]
      exact List.getElem?_set_ne (hne i rfl)
    · simp only [State.setEntry, Function.update_of_ne hp]

theorem dispatch_spec (tree : TaskTree) (s : State) (t : Nat) (later : Bool) :
    (dispatch tree s t later).1.threads = s.threads
      ∧ (dispatch tree s t later).1.log = s.log ++ [.dispatched t]
      ∧ (dispatch tree s t later).1.pending
          = (if tree.subtasks t = none ∧ later = true then [t] else []) ++ s.pending
      ∧ (dispatch tree s t later).1.parent = s.parent ∧ (dispatch tree s t later).1.entry = s.entry
      ∧ (dispatch tree s t later).1.subtasks = s.subtasks := by
  rcases hl : tree.subtasks t with _ | l
  · cases later <;> simp [dispatch, hl]
  · by_cases hempty : l = [] <;> simp [dispatch, hl, hempty]

/-- The innermost call of a thread goes on: what it was is replaced by what is left of it. -/
theorem Sound.exec {s₁ : State} {thread : Nat} {later : Bool} {frame : Frame} {rest fs : List Frame} (h : Sound tree s)
    (hthread : s.threads[thread]? = some (frame :: rest)) (hexec : exec tree s later frame = some (s₁, fs))
    (hs' : s' = { s₁ with threads := s₁.threads.set thread (fs ++ rest) }) :
    Sound tree s' ∧ s.ledger.Advanced tree s'.ledger := by
  subst hs'
  have hframes := frames_set fs hthread
  have hin : frame ∈ s.frames := by
    obtain ⟨others, hold, -⟩ := hframes
    exact hold.mem_iff.2 List.mem_cons_self
  cases frame with
  | call t =>
      obtain ⟨rfl, rfl⟩ : (dispatch tree s t later).1 = s₁ ∧ (dispatch tree s t later).2 = fs := by
        rw [show dispatch tree s t later = (s₁, fs) from Option.some.inj hexec]
        exact ⟨rfl, rfl⟩
      obtain ⟨hthreads, hlog, hpending, hparent, hentry, hsubtasks⟩ := dispatch_spec tree s t later
      refine h.call ⟨?_, hlog, hpending⟩ rfl hparent hentry hsubtasks
      rw [State.frames, State.frames, hthreads]
      exact hframes
  | loop p i =>
      obtain ⟨l, t, hp, hl, ht, hslot⟩ := h.loop_task hin
      simp only [SubTask.exec, hslot, hl, Option.getD_some, Option.bind_eq_bind, Option.bind_some,
        Option.some.injEq, Prod.mk.injEq] at hexec
      obtain ⟨rfl, rfl⟩ := hexec
      exact h.loop hl ht ⟨hframes, (List.append_nil _).symm, rfl⟩ rfl rfl rfl rfl
  | finish t =>
      rcases hnext : tree.next t with _ | cur
      · rcases hparent : s.parent t with _ | parent
        · simp only [SubTask.exec, hnext, hparent, Option.some.injEq, Prod.mk.injEq] at hexec
          obtain ⟨rfl, rfl⟩ := hexec
          exact h.finish (t := t) (by rw [hnext, hparent]) ⟨hframes, rfl, rfl⟩ rfl rfl rfl rfl
        · simp only [SubTask.exec, hnext, hparent, Option.some.injEq, Prod.mk.injEq] at hexec
          obtain ⟨rfl, rfl⟩ := hexec
          exact h.finish (t := t) (by rw [hnext, hparent]) ⟨hframes, rfl, rfl⟩ rfl rfl rfl rfl
      · simp only [SubTask.exec, hnext, Option.some.injEq, Prod.mk.injEq] at hexec
        obtain ⟨rfl, rfl⟩ := hexec
        exact h.finish (t := t) (by rw [hnext]) ⟨hframes, rfl, rfl⟩ rfl rfl rfl rfl
  | handOver cur parent entry =>
      rcases parent with _ | parent
      · simp only [SubTask.exec, Option.some.injEq, Prod.mk.injEq] at hexec
        obtain ⟨rfl, rfl⟩ := hexec
        exact h.handOver ⟨hframes, (List.append_nil _).symm, rfl⟩ rfl rfl rfl fun _ _ _ => rfl
      · simp only [SubTask.exec, Option.some.injEq, Prod.mk.injEq] at hexec
        obtain ⟨rfl, rfl⟩ := hexec
        rcases entry with _ | ⟨p, i⟩
        · exact h.handOver ⟨hframes, (List.append_nil _).symm, rfl⟩ rfl rfl rfl fun _ _ _ => rfl
        · exact h.handOver ⟨hframes, (List.append_nil _).symm, rfl⟩ rfl rfl rfl
            fun p j hne => setEntry_getElem? _ _ _ p j hne
  | leave parent entry =>
      simp only [SubTask.exec, Function.update_self, Option.some.injEq, Prod.mk.injEq] at hexec
      obtain ⟨rfl, rfl⟩ := hexec
      exact h.leave ⟨hframes, rfl, rfl⟩ rfl rfl rfl rfl

theorem Sound.step_advanced {turn : Turn} (h : Sound tree s) (hstep : step tree s turn = some s') :
    Sound tree s' ∧ s.ledger.Advanced tree s'.ledger := by
  cases turn with
  | run thread later =>
      rw [SubTask.step] at hstep
      split at hstep
      · rename_i frame rest hthread
        obtain ⟨⟨s₁, fs⟩, hexec, hs'⟩ := Option.bind_eq_some_iff.1 hstep
        exact h.exec hthread hexec (Option.some.inj hs').symm
      · cases hstep
  | complete t =>
      rw [SubTask.step] at hstep
      split at hstep
      · rename_i ht
        cases hstep
        exact h.complete ht (by simp [State.frames]) rfl rfl rfl rfl rfl rfl
      · cases hstep

theorem Sound.step {turn : Turn} (h : Sound tree s) (hstep : step tree s turn = some s') : Sound tree s' :=
  (h.step_advanced hstep).1

theorem Run.sound (hrun : Run tree history s) : Sound tree s := by
  induction hrun with
  | start => exact sound_start tree
  | step _ hstep ih => exact ih.step hstep

theorem decreases_work (tree : TaskTree) :
    Replay.Decreases (SubTask.step tree) (Sound tree) (fun _ => True) (fun s => s.ledger.work tree) where
  keeps _ _ _ h _ hstep := h.step hstep
  lt _ _ _ h _ hstep := (h.step_advanced hstep).2.work_lt (h.step hstep).balanced

/-- The threads can go on as long as there is something to do. -/
theorem Sound.progress (h : Sound tree s) (hbusy : s.frames ≠ [] ∨ s.pending ≠ []) :
    ∃ turn s', SubTask.step tree s turn = some s' := by
  rcases hpending : s.pending with _ | ⟨t, ts⟩
  · have hframes : s.frames ≠ [] := by
      rcases hbusy with hne | hne
      · exact hne
      · exact absurd hpending hne
    obtain ⟨frame, hframe⟩ := List.exists_mem_of_ne_nil _ hframes
    obtain ⟨stack, hstack, hframe⟩ := List.mem_flatten.1 hframe
    rcases stack with _ | ⟨top, rest⟩
    · simp at hframe
    · obtain ⟨thread, hthread⟩ := List.mem_iff_getElem?.1 hstack
      have hin : top ∈ s.frames := List.mem_flatten.2 ⟨top :: rest, hstack, List.mem_cons_self⟩
      have hexec : (SubTask.exec tree s false top).isSome = true := by
        cases top with
        | call t => rfl
        | loop p i =>
            obtain ⟨l, t, -, -, -, hslot⟩ := h.loop_task hin
            simp only [SubTask.exec, hslot, Option.bind_eq_bind, Option.bind_some, Option.isSome_some]
        | finish t =>
            simp only [SubTask.exec]
            split
            · rfl
            · split <;> rfl
        | handOver cur parent entry => cases parent <;> rfl
        | leave parent entry => rfl
      obtain ⟨⟨s₁, fs⟩, hr⟩ := Option.isSome_iff_exists.1 hexec
      refine ⟨.run thread false, { s₁ with threads := s₁.threads.set thread (fs ++ rest) }, ?_⟩
      simp only [SubTask.step, hthread, hr, Option.bind_eq_bind, Option.bind_some]
  · have hin : t ∈ s.pending := by
      rw [hpending]
      exact List.mem_cons_self
    exact ⟨.complete t, _, if_pos hin⟩

theorem Sound.done_once (h : Sound tree s) (hframes : s.frames = []) (hpending : s.pending = [])
    (hp : tree.InTree p) : s.log.count (.done p) = 1 := by
  rw [← tally_done]
  exact h.balanced.all_done (quiet_of_idle hframes hpending) hp

/-- `done` of a parallel task is called at most once, and only after all its chains have ended; the run can go on
as long as not every task is done; and in the end each parallel task has been done once. The end comes: however the
run goes on, its turns are bounded by the work that is left, and when no turn is possible each has been done once. -/
theorem joins_once (hrun : Run tree history s) :
    (∀ p, tree.subtasks p ≠ none → s.log.count (.done p) ≤ 1)
      ∧ (∀ before after p, s.log = before ++ .done p :: after → Ended tree before p)
      ∧ (s.threads.flatten ≠ [] ∨ s.pending ≠ [] → ∃ turn s', SubTask.step tree s turn = some s')
      ∧ (s.threads.flatten = [] → s.pending = [] → ∀ p, tree.InTree p → s.log.count (.done p) = 1)
      ∧ ∀ turns s', Replay.replay (SubTask.step tree) s turns = some s' →
          turns.length + s'.ledger.work tree ≤ s.ledger.work tree
          ∧ ((∀ turn, SubTask.step tree s' turn = none) → ∀ p, tree.InTree p → s'.log.count (.done p) = 1) := by
  have h := hrun.sound
  refine ⟨?_, h.ended, h.progress, fun hframes hpending p => h.done_once hframes hpending, ?_⟩
  · intro p hp
    obtain ⟨l, hl⟩ := Option.ne_none_iff_exists'.1 hp
    have := h.balanced.parallel p l hl
    rw [← tally_done]
    split at this <;> omega
  · intro turns s' hreplay
    have hs' : Sound tree s' := (decreases_work tree).replay_keeps h (fun _ _ => trivial) hreplay
    refine ⟨(decreases_work tree).length_add_le h (fun _ _ => trivial) hreplay, ?_⟩
    intro hstuck p hp
    have hprogress : ∀ s, Sound tree s → ¬(s.frames = [] ∧ s.pending = []) →
        ∃ turn, True ∧ (SubTask.step tree s turn).isSome = true := by
      intro s hs hbusy
      obtain ⟨turn, t, ht⟩ := hs.progress (not_and_or.1 hbusy)
      exact ⟨turn, trivial, Option.isSome_iff_exists.2 ⟨t, ht⟩⟩
    have hidle : s'.frames = [] ∧ s'.pending = [] :=
      (decreases_work tree).final_of_stuck hprogress h (fun _ _ => trivial) hreplay fun turn _ => hstuck turn
    exact hs'.done_once hidle.1 hidle.2 hp

theorem Run.of_replayFrom {turns : List Turn} {r : List (State × Turn) × State} (hrun : Run tree history s)
    (hreplay : replayFrom tree history s turns = some r) : Run tree r.1 r.2 := by
  induction turns generalizing history s with
  | nil =>
      cases hreplay
      exact hrun
  | cons turn turns ih =>
      rw [replayFrom] at hreplay
      split at hreplay
      · rename_i s' hstep
        exact ih (hrun.step hstep) hreplay
      · cases hreplay

theorem run_of_replay {turns : List Turn} {r : List (State × Turn) × State}
    (hreplay : replay tree turns = some r) : Run tree r.1 r.2 := Run.start.of_replayFrom hreplay

/-- A parallel task with two positions: a task that hands over to another one, and an empty parallel task. -/
def twoPositions : TaskTree where
  root := 0
  subtasks p := if p = 0 then some [1, 2] else if p = 2 then some [] else none
  next t := if t = 1 then some 3 else none
  place t := if t = 1 ∨ t = 3 then some (0, 0) else if t = 2 then some (0, 1) else none
  place_root := rfl
  place_child := by
    intro p i t l hl ht
    split at hl
    · cases hl
      subst p
      rcases i with _ | _ | i <;> simp at ht <;> subst ht <;> rfl
    · split at hl <;> cases hl
      simp at ht
  place_next := by
    intro t u hu
    split at hu <;> cases hu
    subst t
    rfl
  next_injective := by
    intro t t' u hu hu'
    split at hu <;> split at hu' <;> simp_all
  next_ne_root := by
    intro t hroot
    split at hroot <;> cases hroot
  next_ne_child := by
    intro p t u l hl ht hnext
    split at hnext <;> cases hnext
    split at hl
    · cases hl
      simp at ht
    · split at hl <;> cases hl
      simp at ht
  wellFounded := by
    apply Subrelation.wf _ (measure fun t => 10 - t).wf
    rintro u t (hnext | ⟨l, hl, hu⟩)
    · split at hnext <;> cases hnext
      subst t
      simp [InvImage, WellFoundedRelation.rel]
    · split at hl
      · cases hl
        subst t
        simp at hu
        rcases hu with rfl | rfl <;> simp [InvImage, WellFoundedRelation.rel]
      · split at hl <;> cases hl
        simp at hu

/-- The first task is done later by another thread, when the parallel task has only this one left. -/
def laterTurns : List Turn :=
  [.run 0 false, .run 0 false, .run 0 true, .run 0 false, .run 0 false, .run 0 false, .run 0 false, .complete 1,
    .run 1 false, .run 1 false, .run 1 false, .run 1 false, .run 1 false, .run 1 false]

theorem joins_laterTurns : ∃ history s, Run twoPositions history s
    ∧ s.log.count (.done 0) = 1 ∧ s.log.count (.done 2) = 1 := by
  have hends : (replay twoPositions laterTurns).map (fun r => (r.2.threads.flatten, r.2.pending)) = some ([], []) := by
    decide +kernel
  obtain ⟨r, hreplay, hr⟩ := Option.map_eq_some_iff.1 hends
  have hrun := run_of_replay hreplay
  obtain ⟨-, -, -, hdone, -⟩ := joins_once hrun
  have hall := hdone (congrArg Prod.fst hr) (congrArg Prod.snd hr)
  have hroot : twoPositions.InTree 0 := .root
  exact ⟨r.1, r.2, hrun, hall 0 hroot, hall 2 (hroot.child rfl (by decide))⟩

end WorkflowModel.Kernel.SubTask
