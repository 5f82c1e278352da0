import WorkflowModel.Proof.RouterTargets

/-!
# How long a broken target stays out

A target that is taken out gets a node with the time at which it may come back. `notify_available` puts it
back at once and leaves the node. When the target is taken out once more, the list has two nodes of it, and
the older one brings it back while the time of the newer one has not come.
-/

namespace WorkflowModel.Manager.Route

open WorkflowModel Kernel.CommScheduler Scheduler

variable {w w' : World} {t pick : Nat} {now nbreak : Int}

def Op.time : Op → Option Int
  | .notifyUnavailable _ now => some now
  | .checkBreaker now _ _ => some now
  | _ => none

/-- `notify_available` of the target. -/
def Op.Recovers (t : Nat) : Op → Prop
  | .notifyAvailable t' _ _ => t' = t
  | _ => False

/-- The calls are made before the time of the break at `s` is over, and none of them recovers the target. -/
def Meanwhile (t : Nat) (s : Int) (ops : List Op) : Prop :=
  ∀ op ∈ ops, ¬op.Recovers t ∧ ∀ now ∈ op.time, now < s + mttrSecond

def World.Removes (w : World) (t : Nat) (s : Int) : Prop :=
  w.inGroup t = true ∧ (notifyUnavailable t s w).inGroup t = false

/-- A target that was taken out is out until the time of its break is over, or it is recovered. -/
def StaysOut (w : World) (ops : List Op) : Prop :=
  ∀ (before : List Op) (t : Nat) (s : Int) (mid after : List Op),
    ops = before ++ .notifyUnavailable t s :: (mid ++ after) → (run before w).Removes t s → Meanwhile t s mid →
      (run mid (notifyUnavailable t s (run before w))).inGroup t = false

/-- `notify_unavailable` takes the target out in this state. -/
def World.Breaks (w : World) (t : Nat) : Prop :=
  w.inGroup t = true ∧ 1 < w.router.targets.length ∧ 1 < w.router.nleft

/-- When a target is taken out, the nodes of its earlier breaks that the list still has are not over at any check
of the list that is made meanwhile. -/
def EarlierNodesWait (w : World) (ops : List Op) : Prop :=
  ∀ (before : List Op) (t : Nat) (s : Int) (mid : List Op) (now nbreak : Int) (pick : Nat → Nat) (after : List Op),
    ops = before ++ .notifyUnavailable t s :: (mid ++ .checkBreaker now nbreak pick :: after) →
      (run before w).Breaks t → Meanwhile t s mid → nbreak ≠ 0 → now < s + mttrSecond →
        ∀ node ∈ (run before w).router.breakerList, node.target = t → now < node.timeout

def World.nodesOf (w : World) (t : Nat) : List BreakerNode := w.router.breakerList.filter (·.target = t)

theorem mem_nodesOf {node : BreakerNode} :
    node ∈ w.nodesOf t ↔ node ∈ w.router.breakerList ∧ node.target = t := by
  rw [World.nodesOf, List.mem_filter, decide_eq_true_iff]

/-- The target is out as before, with the same nodes. -/
structure SameOutside (t : Nat) (w w' : World) : Prop where
  inGroup : w'.inGroup t = w.inGroup t
  nodesOf : w'.nodesOf t = w.nodesOf t

theorem SameOutside.refl (t : Nat) (w : World) : SameOutside t w w := ⟨rfl, rfl⟩

theorem SameOutside.trans {w'' : World} (h : SameOutside t w w') (h' : SameOutside t w' w'') : SameOutside t w w'' :=
  ⟨h'.inGroup.trans h.inGroup, h'.nodesOf.trans h.nodesOf⟩

theorem add_sameOutside {t' : Nat} (hne : t ≠ t') (w : World) (pick : Nat) : SameOutside t w (w.add t' pick) := by
  refine ⟨?_, rfl⟩
  by_cases hdone : (w.comm.sched.add w.router.group t' true pick).2 = .done
  · exact (add_switches hdone).1.inGroup_of_ne hne
  · rw [World.add]
    dsimp only
    rw [add_of_ne_done hdone]
    rfl

theorem dropNode_sameOutside {node : BreakerNode} {kept rest : List BreakerNode}
    (hlist : w.router.breakerList = kept ++ node :: rest) (hne : node.target ≠ t) :
    SameOutside t w (w.dropNode (kept ++ rest)) := by
  refine ⟨rfl, ?_⟩
  unfold World.nodesOf World.dropNode
  rw [hlist, List.filter_append, List.filter_append, List.filter_cons_of_neg (by simpa using hne)]

/-- A check at which no node of the target is over does nothing to it. -/
theorem checkNodes_sameOutside (now : Int) (pick : Nat → Nat) :
    ∀ (nodes kept : List BreakerNode) {w : World}, w.router.breakerList = kept ++ nodes →
      (∀ node ∈ nodes, node.target = t → now < node.timeout) →
        SameOutside t w (checkNodes now pick kept nodes w) := by
  intro nodes
  induction nodes with
  | nil => exact fun _ w _ _ => .refl t w
  | cons node rest ih =>
      intro kept w hlist hwait
      have hrest : ∀ node' ∈ rest, node'.target = t → now < node'.timeout :=
        fun node' hnode => hwait node' (List.mem_cons_of_mem node hnode)
      rw [checkNodes]
      split_ifs with hover
      · have hne : node.target ≠ t := by
          intro heq
          exact absurd (hwait node List.mem_cons_self heq) (not_lt.mpr hover)
        have hadded := add_sameOutside hne.symm w (pick node.target)
        have hdropped : SameOutside t (w.add node.target (pick node.target))
            ((w.add node.target (pick node.target)).dropNode (kept ++ rest)) :=
          dropNode_sameOutside hlist hne
        exact (hadded.trans hdropped).trans (ih kept rfl hrest)
      · exact ih (kept ++ [node]) (by rw [hlist, List.append_assoc]; rfl) hrest

/-- What a call of `notify_unavailable` does: nothing, or the target leaves the group and gets a node. -/
theorem notifyUnavailable_cases (t : Nat) (s : Int) (w : World) :
    notifyUnavailable t s w = w
      ∨ w.Breaks t ∧ Switches w (notifyUnavailable t s w) t none
        ∧ (notifyUnavailable t s w).router = w.router.broken t s := by
  unfold notifyUnavailable
  split_ifs with hone hlast
  · exact .inl rfl
  · exact .inl rfl
  · dsimp only
    by_cases hdone : (w.comm.sched.remove w.router.group t).2 = .done
    · obtain ⟨hmember, -, hsched⟩ := remove_eq hdone
      rw [if_pos hdone, hsched]
      refine .inr ⟨⟨inGroup_iff.mpr hmember, not_le.mp hone, not_le.mp hlast⟩, ⟨⟨rfl, rfl⟩, ?_, ?_, fun _ => rfl⟩, rfl⟩
      · exact if_pos rfl
      · intro t' hne
        exact if_neg hne
    · rw [if_neg hdone, remove_of_ne_done hdone]
      exact .inl rfl

theorem World.Removes.cases {s : Int} (h : w.Removes t s) :
    w.Breaks t ∧ (notifyUnavailable t s w).router = w.router.broken t s := by
  obtain hsame | ⟨hbreaks, -, hrouter⟩ := notifyUnavailable_cases t s w
  · have hout := h.2
    rw [hsame, h.1] at hout
    cases hout
  · exact ⟨hbreaks, hrouter⟩

/-- Nobody waits for a target of the router, so a target that may be taken out is. -/
theorem World.Breaks.removes (h : w.Breaks t) (hw : Tracked w) (ht : t ∈ w.router.targets) (s : Int) :
    w.Removes t s := by
  obtain ⟨hin, htargets, hleft⟩ := h
  refine ⟨hin, ?_⟩
  have hdone : (w.comm.sched.remove w.router.group t).2 = .done := by
    rw [remove, if_pos ⟨inGroup_iff.mp hin, hw.waitCnt t ht⟩]
  obtain ⟨-, -, hsched⟩ := remove_eq hdone
  rw [not_inGroup_iff]
  unfold notifyUnavailable
  rw [if_neg (not_le.mpr htargets), if_neg (not_le.mpr hleft)]
  dsimp only
  rw [if_pos hdone, hsched]
  change (if t = t then none else _) ≠ some w.router.group
  rw [if_pos rfl]
  exact (Option.some_ne_none _).symm

theorem notifyUnavailable_sameOutside (hout : w.inGroup t = false) (t' : Nat) (s : Int) :
    SameOutside t w (notifyUnavailable t' s w) := by
  obtain hsame | ⟨hbreaks, hswitch, hrouter⟩ := notifyUnavailable_cases t' s w
  · rw [hsame]
    exact .refl t w
  · have hne : t ≠ t' := by
      rintro rfl
      exact absurd (hout.symm.trans hbreaks.1) Bool.false_ne_true
    refine ⟨hswitch.inGroup_of_ne hne, ?_⟩
    unfold World.nodesOf
    rw [hrouter, Router.broken, List.filter_append, List.filter_cons_of_neg (by simpa using hne.symm),
      List.filter_nil, List.append_nil]

def Op.Finds (nodes : List BreakerNode) : Op → Prop
  | .checkBreaker now nbreak _ => nbreak ≠ 0 ∧ ∃ node ∈ nodes, node.timeout ≤ now
  | _ => False

/-- A target that is out stays out with its nodes, but for its recovery and for a check that finds a node over. -/
theorem step_sameOutside (hout : w.inGroup t = false) {op : Op} (hrecover : ¬op.Recovers t)
    (hfinds : ¬op.Finds (w.nodesOf t)) : SameOutside t w (w.step op) := by
  have hsched : ∀ {comm : State}, SameMembership w.comm.sched comm.sched →
      SameOutside t w { w with comm := comm } := fun hsame => ⟨congrFun (inGroup_of_same hsame) t, rfl⟩
  cases op with
  | notifyUnavailable t' now => exact notifyUnavailable_sameOutside hout t' now
  | notifyAvailable t' nbreak pick =>
      rw [World.step, notifyAvailable]
      split_ifs with hnothing
      · exact .refl t w
      · exact add_sameOutside (Ne.symm hrecover) w pick
  | checkBreaker now nbreak pick =>
      rw [World.step, checkBreaker]
      split_ifs with hnothing
      · exact .refl t w
      · apply checkNodes_sameOutside now pick w.router.breakerList [] rfl
        intro node hnode htarget
        by_contra hover
        exact hfinds ⟨fun hzero => hnothing (.inr hzero), node, mem_nodesOf.mpr ⟨hnode, htarget⟩, not_lt.mp hover⟩
  | acquire waitTimeout => exact hsched (sameMembership_groupAcquire _ _ waitTimeout)
  | resume i => exact hsched (sameMembership_groupResume _ _ i)
  | expire i => exact hsched (sameMembership_setGroup rfl)
  | release t' pick =>
      apply hsched
      unfold State.step
      dsimp only
      split_ifs
      · exact sameMembership_release _ t' pick
      · exact .refl _

theorem step_of_finds (hw : Tracked w) (htwo : 2 ≤ w.router.targets.length) {op : Op}
    (h : op.Finds (w.nodesOf t)) : (w.step op).inGroup t = true := by
  cases op with
  | checkBreaker now nbreak pick =>
      obtain ⟨hnbreak, node, hnode, hover⟩ := h
      obtain ⟨hmem, htarget⟩ := mem_nodesOf.mp hnode
      have hbusy : ¬(w.router.targets.length ≤ 1 ∨ nbreak = 0) := by
        rintro (hone | hzero)
        · omega
        · exact hnbreak hzero
      rw [World.step, checkBreaker, if_neg hbusy, ← htarget]
      exact (Tracked.checkNodes now pick w.router.breakerList [] hw rfl).2.2 node hmem hover
  | _ => exact h.elim

theorem run_cons (op : Op) (ops : List Op) (w : World) : run (op :: ops) w = run ops (w.step op) := rfl

theorem run_concat (ops : List Op) (op : Op) (w : World) : run (ops ++ [op]) w = (run ops w).step op := by
  unfold run
  rw [List.foldl_append]
  rfl

theorem run_sameOutside {ops : List Op} (hout : w.inGroup t = false) (hrecover : ∀ op ∈ ops, ¬op.Recovers t)
    (hfinds : ∀ op ∈ ops, ¬op.Finds (w.nodesOf t)) : SameOutside t w (run ops w) := by
  induction ops generalizing w with
  | nil => exact .refl t w
  | cons op ops ih =>
      have hstep := step_sameOutside hout (hrecover op List.mem_cons_self) (hfinds op List.mem_cons_self)
      rw [run_cons]
      apply hstep.trans
      apply ih
      · exact hstep.inGroup.trans hout
      · exact fun op' hop => hrecover op' (List.mem_cons_of_mem op hop)
      · rw [hstep.nodesOf]
        exact fun op' hop => hfinds op' (List.mem_cons_of_mem op hop)

/-- The first check that finds a node over which the target has now brings it back. -/
theorem exists_back {ops : List Op} (hw : Tracked w) (hpos : 1 ≤ w.router.nleft)
    (htwo : 2 ≤ w.router.targets.length) (hreports : ∀ op ∈ ops, op.Reports w.router.targets)
    (hout : w.inGroup t = false) (hrecover : ∀ op ∈ ops, ¬op.Recovers t)
    (hfinds : ∃ op ∈ ops, op.Finds (w.nodesOf t)) :
    ∃ done rest, ops = done ++ rest ∧ (run done w).inGroup t = true := by
  induction ops generalizing w with
  | nil =>
      obtain ⟨op, hop, -⟩ := hfinds
      exact absurd hop List.not_mem_nil
  | cons op ops ih =>
      by_cases hnow : op.Finds (w.nodesOf t)
      · exact ⟨[op], ops, rfl, step_of_finds hw htwo hnow⟩
      · have hstep := step_sameOutside hout (hrecover op List.mem_cons_self) hnow
        obtain ⟨hafter, hsame, hpos'⟩ := hw.step hpos (hreports op List.mem_cons_self)
        obtain ⟨done, rest, rfl, hback⟩ : ∃ done rest, ops = done ++ rest ∧ (run done (w.step op)).inGroup t = true := by
          apply ih hafter hpos'
          · rw [hsame.targets]
            exact htwo
          · rw [hsame.targets]
            exact fun op' hop => hreports op' (List.mem_cons_of_mem op hop)
          · exact hstep.inGroup.trans hout
          · exact fun op' hop => hrecover op' (List.mem_cons_of_mem op hop)
          · obtain ⟨op', hop, hfound⟩ := hfinds
            obtain rfl | hop := List.mem_cons.mp hop
            · exact absurd hfound hnow
            · exact ⟨op', hop, hstep.nodesOf ▸ hfound⟩
        exact ⟨op :: done, rest, rfl, hback⟩

theorem World.Removes.mem_nodesOf {s : Int} (h : w.Removes t s) {node : BreakerNode} :
    node ∈ (notifyUnavailable t s w).nodesOf t
      ↔ node ∈ w.nodesOf t ∨ node = { target := t, timeout := s + mttrSecond } := by
  unfold World.nodesOf
  rw [h.cases.2, Router.broken, List.filter_append, List.filter_cons_of_pos (by simp), List.filter_nil,
    List.mem_append, List.mem_singleton]

theorem Meanwhile.of_append_left {s : Int} {ops rest : List Op} (h : Meanwhile t s (ops ++ rest)) :
    Meanwhile t s ops :=
  fun op hop => h op (List.mem_append_left rest hop)

/-- If the earlier nodes wait, no check meanwhile finds a node over. -/
theorem staysOut_of_earlierNodesWait {ops : List Op} (h : EarlierNodesWait w ops) : StaysOut w ops := by
  rintro before t s mid after rfl hremoves hmeanwhile
  have hfinds : ∀ op ∈ mid, ¬op.Finds ((notifyUnavailable t s (run before w)).nodesOf t) := by
    intro op hop hfinds
    obtain ⟨mid, rest, rfl⟩ := List.append_of_mem hop
    cases op with
    | checkBreaker now nbreak pick =>
        obtain ⟨hnbreak, node, hnode, hover⟩ := hfinds
        have hnow : now < s + mttrSecond := (hmeanwhile _ hop).2 now rfl
        obtain hearlier | rfl := hremoves.mem_nodesOf.mp hnode
        · obtain ⟨hmem, htarget⟩ := Route.mem_nodesOf.mp hearlier
          have hwait := h before t s mid now nbreak pick (rest ++ after) (by simp) hremoves.cases.1
            hmeanwhile.of_append_left hnbreak hnow node hmem htarget
          omega
        · dsimp only at hover
          omega
    | _ => exact hfinds.elim
  have hsame := run_sameOutside hremoves.2 (fun op hop => (hmeanwhile op hop).1) hfinds
  exact hsame.inGroup.trans hremoves.2

/-- An earlier node that is over at a check meanwhile brings the target back by then. -/
theorem earlierNodesWait_of_staysOut {ops : List Op} (hw : Tracked w) (hpos : 1 ≤ w.router.nleft)
    (htwo : 2 ≤ w.router.targets.length) (hreports : ∀ op ∈ ops, op.Reports w.router.targets)
    (h : StaysOut w ops) : EarlierNodesWait w ops := by
  rintro before t s mid now nbreak pick after rfl hbreaks hmeanwhile hnbreak hnow node hnode htarget
  by_contra hover
  have ht : t ∈ w.router.targets := hreports (.notifyUnavailable t s) (by simp)
  obtain ⟨hbefore, hsame, hpos'⟩ := hw.run hpos fun op hop => hreports op (List.mem_append_left _ hop)
  have hremoves := hbreaks.removes hbefore (hsame.targets ▸ ht) s
  obtain ⟨hremoved, hsame', hpos''⟩ := hbefore.notifyUnavailable (hsame.targets ▸ ht) hpos' s
  have htargets := hsame'.targets.trans hsame.targets
  have hmeanwhile' : Meanwhile t s (mid ++ [.checkBreaker now nbreak pick]) := by
    intro op hop
    obtain hop | hop := List.mem_append.mp hop
    · exact hmeanwhile op hop
    · obtain rfl := List.mem_singleton.mp hop
      refine ⟨id, ?_⟩
      rintro _ ⟨⟩
      exact hnow
  obtain ⟨done, rest, hsplit, hback⟩ : ∃ done rest, mid ++ [.checkBreaker now nbreak pick] = done ++ rest
      ∧ (run done (notifyUnavailable t s (run before w))).inGroup t = true := by
    apply exists_back hremoved hpos''
    · rw [htargets]
      exact htwo
    · rw [htargets]
      intro op hop
      apply hreports
      simp only [List.mem_append, List.mem_cons] at hop ⊢
      tauto
    · exact hremoves.2
    · exact fun op hop => (hmeanwhile' op hop).1
    · refine ⟨_, List.mem_append_right mid (List.mem_singleton_self _), hnbreak, node, ?_, not_lt.mp hover⟩
      exact hremoves.mem_nodesOf.mpr (.inl (Route.mem_nodesOf.mpr ⟨hnode, htarget⟩))
  have hout := h before t s done (rest ++ after) (by
    rw [← List.append_assoc done, ← hsplit, List.append_assoc]
    rfl) hremoves (Meanwhile.of_append_left (hsplit ▸ hmeanwhile'))
  exact absurd (hout.symm.trans hback) Bool.false_ne_true

/-- In a run of a router with two targets or more, every broken target stays out for its time exactly when the
earlier nodes of the targets that are taken out wait. -/
theorem staysOut_iff {maxConnections group first : Nat} {addresses : List Bool} {comm : State}
    (haddresses : 2 ≤ addresses.length)
    (hinit : init maxConnections group first addresses comm = some w) (ops : List Op)
    (hops : ∀ op ∈ ops, op.Reports w.router.targets) : StaysOut w ops ↔ EarlierNodesWait w ops := by
  obtain ⟨hfilled, hlength⟩ := filled_init haddresses hinit
  have hpos : 1 ≤ w.router.nleft := by
    rw [hfilled.nleft, hlength]
    omega
  have htwo : 2 ≤ w.router.targets.length := hlength ▸ haddresses
  exact ⟨earlierNodesWait_of_staysOut hfilled.tracked hpos htwo hops, staysOut_of_earlierNodesWait⟩

/-- A break, a recovery, and a second break before the first node is over. -/
def breakTwice : List Op :=
  [.notifyUnavailable 1 0, .notifyAvailable 1 1 0, .notifyUnavailable 1 10, .checkBreaker 30 2 fun _ => 0]

/-- Two breaks, of which the second one comes after the node of the first is over and gone. -/
def breakApart : List Op :=
  [.notifyUnavailable 1 0, .checkBreaker 30 2 fun _ => 0, .notifyUnavailable 1 40, .checkBreaker 60 2 fun _ => 0]

/-- The target is back at 30, and out from 40 on. -/
theorem staysOut_iff_breakApart :
    ∃ w, init 4 0 0 [true, true] (initialState fun _ => ⟨4, by decide⟩) = some w
      ∧ (run (breakApart.take 2) w).inGroup 1 = true ∧ (run breakApart w).inGroup 1 = false
      ∧ StaysOut w breakApart := by
  have hrun : (init 4 0 0 [true, true] (initialState fun _ => ⟨4, by decide⟩)).map
      (fun w => (w.router.targets, w.router.breakerList.length, (run (breakApart.take 2) w).router.breakerList.length,
        (run (breakApart.take 2) w).inGroup 1, (run breakApart w).inGroup 1))
      = some ([0, 1], 0, 0, true, false) := by decide
  obtain ⟨w, hinit, hw⟩ := Option.map_eq_some_iff.mp hrun
  obtain ⟨htargets, hnone, hgone, hback, hout⟩ : w.router.targets = [0, 1] ∧ w.router.breakerList.length = 0
      ∧ (run (breakApart.take 2) w).router.breakerList.length = 0
      ∧ (run (breakApart.take 2) w).inGroup 1 = true ∧ (run breakApart w).inGroup 1 = false := by
    simpa only [Prod.mk.injEq] using hw
  refine ⟨w, hinit, hback, hout, (staysOut_iff (by decide) hinit _ ?_).mpr ?_⟩
  · simp [breakApart, Op.Reports, htargets]
  · rintro before t s mid now nbreak pick after hsplit - - - - node hnode
    -- a break is preceded by nothing, or by the first break and the check that ends it
    have hbefore : before = breakApart.take before.length := by rw [hsplit, List.take_left]
    have hbreak : breakApart[before.length]? = some (.notifyUnavailable t s) := by
      rw [hsplit, List.getElem?_append_right le_rfl, Nat.sub_self]
      rfl
    obtain hzero | htwo : before.length = 0 ∨ before.length = 2 := by
      have hshort : before.length < 4 := (List.getElem?_eq_some_iff.mp hbreak).1
      generalize before.length = k at hbreak hshort ⊢
      obtain rfl | rfl | rfl | rfl : k = 0 ∨ k = 1 ∨ k = 2 ∨ k = 3 := by omega
      · exact .inl rfl
      · cases hbreak
      · exact .inr rfl
      · cases hbreak
    · rw [List.length_eq_zero_iff.mp hzero] at hnode
      rw [List.length_eq_zero_iff] at hnone
      change node ∈ w.router.breakerList at hnode
      rw [hnone] at hnode
      cases hnode
    · rw [hbefore, htwo, List.length_eq_zero_iff.mp hgone] at hnode
      cases hnode

/-- The node of the break at 0 ends the break at 10 when 30 is reached. -/
theorem not_staysOut_breakTwice :
    ¬∀ (maxConnections group first : Nat) (addresses : List Bool) (comm : State) (w : World) (ops : List Op),
      2 ≤ addresses.length → init maxConnections group first addresses comm = some w →
        (∀ op ∈ ops, op.Reports w.router.targets) → (ops.filterMap Op.time).Pairwise (· ≤ ·) → StaysOut w ops := by
  intro hall
  have hrun : (init 4 0 0 [true, true] (initialState fun _ => ⟨4, by decide⟩)).map
      (fun w => (w.router.targets, (run (breakTwice.take 2) w).inGroup 1,
        (notifyUnavailable 1 10 (run (breakTwice.take 2) w)).inGroup 1, (run breakTwice w).inGroup 1))
      = some ([0, 1], true, false, true) := by decide
  obtain ⟨w, hinit, hw⟩ := Option.map_eq_some_iff.mp hrun
  obtain ⟨htargets, hbefore, hremoved, hback⟩ : w.router.targets = [0, 1]
      ∧ (run (breakTwice.take 2) w).inGroup 1 = true
      ∧ (notifyUnavailable 1 10 (run (breakTwice.take 2) w)).inGroup 1 = false
      ∧ (run breakTwice w).inGroup 1 = true := by
    simpa only [Prod.mk.injEq] using hw
  have hstays := hall 4 0 0 [true, true] _ w breakTwice (by decide) hinit
    (by simp [breakTwice, Op.Reports, htargets]) (by decide)
  have hmeanwhile : Meanwhile 1 10 [.checkBreaker 30 2 fun _ => 0] := by
    simp [Meanwhile, Op.Recovers, Op.time, mttrSecond]
  have hout := hstays (breakTwice.take 2) 1 10 [.checkBreaker 30 2 fun _ => 0] [] rfl ⟨hbefore, hremoved⟩ hmeanwhile
  exact absurd (hout.symm.trans hback) Bool.false_ne_true

end WorkflowModel.Manager.Route
