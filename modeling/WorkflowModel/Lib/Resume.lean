import Mathlib.Data.List.Basic

/-!
# Resumable scanners

A scanner that reads a growing buffer keeps a state and an offset into the buffer. Each step looks
only at the bytes from the offset on and either moves on, asks for more bytes, or stops with a code.
Asking for more leaves the state as it was, so the next call scans the same bytes again with a longer
buffer. What makes this safe is a pair of facts about one step: a verdict other than "more" does not
change when bytes are appended, and "more" changes nothing that a later step reads. The rules below
lift the two facts to whole runs, over any alphabet, state and code.
-/

namespace Resume

/-- What one step says about the bytes it was shown. -/
inductive Verdict (ε : Type) where
  | again
  | more
  | stop (code : ε)
  deriving DecidableEq

structure Machine (α σ ε : Type) where
  step : σ → List α → Verdict ε × σ
  offset : σ → Nat

variable {α σ ε : Type}

/-- The loop around the step: go on as long as the verdict is `again`. -/
def Machine.loop (M : Machine α σ ε) : Nat → List α → σ → Verdict ε × σ
  | 0, _, s => (.more, s)
  | fuel + 1, message, s =>
      match M.step s (message.drop (M.offset s)) with
      | (.again, next) => M.loop fuel message next
      | result => result

/-- Every round but the last consumes a byte, so one round more than there are bytes is enough. -/
def Machine.run (M : Machine α σ ε) (message : List α) (s : σ) : Verdict ε × σ :=
  M.loop (message.length + 1) message s

/-- The facts about one step, for the states in which the loop is entered. `R` relates states that no
later step can tell apart. -/
structure Machine.Resumable (M : Machine α σ ε) (live : σ → Prop) (R : σ → σ → Prop) : Prop where
  equivalence : Equivalence R
  offset_eq : ∀ {s t}, R s t → M.offset s = M.offset t
  live_of_rel : ∀ {s t}, R s t → live s → live t
  congr : ∀ {s t} l, live s → R s t →
    (M.step s l).1 = (M.step t l).1 ∧ R (M.step s l).2 (M.step t l).2
  stable : ∀ {s l} t, live s → (M.step s l).1 ≠ .more → M.step s (l ++ t) = M.step s l
  more : ∀ {s l}, live s → (M.step s l).1 = .more → R (M.step s l).2 s
  live_again : ∀ {s l}, live s → (M.step s l).1 = .again → live (M.step s l).2
  advance : ∀ {s l}, live s → (M.step s l).1 = .again →
    M.offset s < M.offset (M.step s l).2 ∧ M.offset (M.step s l).2 ≤ M.offset s + l.length

/-- Two results that agree in the verdict and, up to `R`, in the state. -/
def Agree (R : σ → σ → Prop) (x y : Verdict ε × σ) : Prop :=
  x.1 = y.1 ∧ R x.2 y.2

namespace Machine

variable {M : Machine α σ ε} {live : σ → Prop} {R : σ → σ → Prop}

theorem loop_again {fuel : Nat} {message : List α} {s next : σ}
    (h : M.step s (message.drop (M.offset s)) = (.again, next)) :
    M.loop (fuel + 1) message s = M.loop fuel message next := by
  simp [loop, h]

theorem loop_of_ne_again {fuel : Nat} {message : List α} {s : σ}
    (h : (M.step s (message.drop (M.offset s))).1 ≠ .again) :
    M.loop (fuel + 1) message s = M.step s (message.drop (M.offset s)) := by
  rcases hstep : M.step s (message.drop (M.offset s)) with ⟨verdict, next⟩
  rw [hstep] at h
  cases verdict with
  | again => exact absurd rfl h
  | more => simp [loop, hstep]
  | stop code => simp [loop, hstep]

/-- The loop is entered in a live state whose offset lies inside the message. -/
def Ready (M : Machine α σ ε) (live : σ → Prop) (message : List α) (s : σ) : Prop :=
  live s ∧ M.offset s ≤ message.length

theorem Ready.append {message : List α} {s : σ} (hs : M.Ready live message s) (tail : List α) :
    M.Ready live (message ++ tail) s :=
  ⟨hs.1, by simp only [List.length_append]; exact Nat.le_add_right_of_le hs.2⟩

theorem Ready.of_rel (hM : M.Resumable live R) {message : List α} {s t : σ} (h : R s t)
    (hs : M.Ready live message s) : M.Ready live message t :=
  ⟨hM.live_of_rel h hs.1, hM.offset_eq h ▸ hs.2⟩

theorem Ready.again (hM : M.Resumable live R) {message : List α} {s next : σ}
    (hs : M.Ready live message s) (h : M.step s (message.drop (M.offset s)) = (.again, next)) :
    M.offset s < M.offset next ∧ M.Ready live message next := by
  have hadvance := hM.advance (l := message.drop (M.offset s)) hs.1 (by rw [h])
  have hlive := hM.live_again (l := message.drop (M.offset s)) hs.1 (by rw [h])
  have hle := hs.2
  rw [h] at hadvance hlive
  simp only [List.length_drop] at hadvance
  exact ⟨hadvance.1, hlive, by omega⟩

/-- Fuel beyond the unread bytes makes no difference. -/
theorem loop_fuel (hM : M.Resumable live R) {message : List α} :
    ∀ (fuel : Nat) {s : σ}, M.Ready live message s →
      message.length - M.offset s + 1 ≤ fuel → M.loop fuel message s = M.run message s := by
  have hfuel : ∀ (fuel fuel' : Nat) {s : σ}, M.Ready live message s →
      message.length - M.offset s + 1 ≤ fuel → message.length - M.offset s + 1 ≤ fuel' →
      M.loop fuel message s = M.loop fuel' message s := by
    intro fuel
    induction fuel with
    | zero => intro fuel' s _ hlt; omega
    | succ fuel ih =>
        intro fuel' s hs hlt hlt'
        obtain ⟨fuel', rfl⟩ : ∃ k, fuel' = k + 1 := ⟨fuel' - 1, by omega⟩
        rcases hstep : M.step s (message.drop (M.offset s)) with ⟨verdict, next⟩
        by_cases hagain : verdict = .again
        · subst hagain
          obtain ⟨hoffset, hnext⟩ := hs.again hM hstep
          have hle := hs.2
          have hle' := hnext.2
          rw [loop_again hstep, loop_again hstep]
          exact ih fuel' hnext (by omega) (by omega)
        · rw [loop_of_ne_again (by rw [hstep]; exact hagain),
            loop_of_ne_again (by rw [hstep]; exact hagain)]
  intro fuel s hs hlt
  exact hfuel fuel _ hs hlt (by omega)

theorem run_again (hM : M.Resumable live R) {message : List α} {s next : σ}
    (hs : M.Ready live message s) (h : M.step s (message.drop (M.offset s)) = (.again, next)) :
    M.run message s = M.run message next := by
  obtain ⟨hoffset, hnext⟩ := hs.again hM h
  have hle := hnext.2
  rw [run, loop_again h]
  exact loop_fuel hM _ hnext (by omega)

theorem run_of_ne_again {message : List α} {s : σ}
    (h : (M.step s (message.drop (M.offset s))).1 ≠ .again) :
    M.run message s = M.step s (message.drop (M.offset s)) :=
  loop_of_ne_again h

/-- Induction along a run: a property that goes backwards through `again` steps and holds of the
states in which the run ends holds of the state it starts in. -/
theorem run_induction (hM : M.Resumable live R) {message : List α} {P : σ → Prop}
    (hend : ∀ s, M.Ready live message s →
      (M.step s (message.drop (M.offset s))).1 ≠ .again → P s)
    (hagain : ∀ s next, M.Ready live message s →
      M.step s (message.drop (M.offset s)) = (.again, next) → P next → P s)
    (s : σ) (hs : M.Ready live message s) : P s := by
  induction hn : message.length - M.offset s using Nat.strongRecOn generalizing s with
  | ind n ih =>
      rcases hstep : M.step s (message.drop (M.offset s)) with ⟨verdict, next⟩
      by_cases hverdict : verdict = .again
      · subst hverdict
        obtain ⟨hoffset, hnext⟩ := hs.again hM hstep
        have hle := hnext.2
        exact hagain s next hs hstep (ih _ (by omega) next hnext rfl)
      · exact hend s hs (by rw [hstep]; exact hverdict)

theorem run_end (hM : M.Resumable live R) {message : List α} {Q : Verdict ε × σ → Prop}
    (hend : ∀ s, M.Ready live message s → (M.step s (message.drop (M.offset s))).1 ≠ .again →
      Q (M.step s (message.drop (M.offset s)))) {s : σ} (hs : M.Ready live message s) : Q (M.run message s) := by
  refine run_induction hM (P := fun s => Q (M.run message s)) ?_ ?_ s hs
  · intro s hs hne
    rw [run_of_ne_again hne]
    exact hend s hs hne
  · intro s next hs hstep ih
    rw [run_again hM hs hstep]
    exact ih

/-- Related states run alike. -/
theorem run_congr (hM : M.Resumable live R) {message : List α} {s t : σ} (h : R s t)
    (hs : M.Ready live message s) :
    Agree R (M.run message s) (M.run message t) := by
  revert t
  refine run_induction hM (P := fun s => ∀ {t}, R s t →
    Agree R (M.run message s) (M.run message t)) ?_ ?_ s hs
  · intro s hs hne t hst
    have hcongr := hM.congr (message.drop (M.offset s)) hs.1 hst
    have hoffset := hM.offset_eq hst
    rw [run_of_ne_again hne, run_of_ne_again (by rw [← hoffset, ← hcongr.1]; exact hne), ← hoffset]
    exact hcongr
  · intro s next hs hstep ih t hst
    have hcongr := hM.congr (message.drop (M.offset s)) hs.1 hst
    have hoffset := hM.offset_eq hst
    rw [hstep] at hcongr
    have hstep' : M.step t (message.drop (M.offset t))
        = (.again, (M.step t (message.drop (M.offset t))).2) := by
      rw [← hoffset]
      exact Prod.ext hcongr.1.symm rfl
    rw [run_again hM hs hstep, run_again hM (hs.of_rel hM hst) hstep', ← hoffset]
    exact ih hcongr.2

theorem step_append_of_ne_more (hM : M.Resumable live R) {message : List α} {s : σ} (tail : List α)
    (hs : M.Ready live message s) (h : (M.step s (message.drop (M.offset s))).1 ≠ .more) :
    M.step s ((message ++ tail).drop (M.offset s)) = M.step s (message.drop (M.offset s)) := by
  rw [List.drop_append_of_le_length hs.2]
  exact hM.stable tail hs.1 h

theorem run_append_of_stop (hM : M.Resumable live R) {message : List α} {s : σ} (tail : List α)
    (hs : M.Ready live message s) (h : (M.run message s).1 ≠ .more) :
    M.run (message ++ tail) s = M.run message s := by
  revert h
  refine run_induction hM (P := fun s => (M.run message s).1 ≠ .more →
    M.run (message ++ tail) s = M.run message s) ?_ ?_ s hs
  · intro s hs hne hmore
    rw [run_of_ne_again hne] at hmore ⊢
    have hstep := step_append_of_ne_more hM tail hs hmore
    rw [run_of_ne_again (by rw [hstep]; exact hne), hstep]
  · intro s next hs hstep ih hmore
    rw [run_again hM hs hstep] at hmore ⊢
    have hstep' := step_append_of_ne_more hM tail hs (by rw [hstep]; simp)
    rw [run_again hM (hs.append tail) (hstep'.trans hstep)]
    exact ih hmore

/-- A run that asked for more can be taken up again from the state it left. -/
theorem run_append_of_more (hM : M.Resumable live R) {message : List α} {s : σ} (tail : List α)
    (hs : M.Ready live message s) (h : (M.run message s).1 = .more) :
    Agree R (M.run (message ++ tail) s) (M.run (message ++ tail) (M.run message s).2) := by
  revert h
  refine run_induction hM (P := fun s => (M.run message s).1 = .more →
    Agree R (M.run (message ++ tail) s) (M.run (message ++ tail) (M.run message s).2)) ?_ ?_ s hs
  · intro s hs hne hmore
    rw [run_of_ne_again hne] at hmore ⊢
    exact run_congr hM (hM.equivalence.symm (hM.more hs.1 hmore)) (hs.append tail)
  · intro s next hs hstep ih hmore
    rw [run_again hM hs hstep] at hmore ⊢
    have hstep' := step_append_of_ne_more hM tail hs (by rw [hstep]; simp)
    rw [run_again hM (hs.append tail) (hstep'.trans hstep)]
    exact ih hmore

theorem ready_run_of_more (hM : M.Resumable live R) {message : List α} {s : σ}
    (hs : M.Ready live message s) (h : (M.run message s).1 = .more) :
    M.Ready live message (M.run message s).2 := by
  revert h
  refine run_end hM (Q := fun result => result.1 = .more → M.Ready live message result.2) ?_ hs
  intro s hs _ hmore
  exact hs.of_rel hM (hM.equivalence.symm (hM.more hs.1 hmore))

theorem run_ne_again {message : List α} {s : σ} : (M.run message s).1 ≠ .again := by
  have hloop : ∀ (fuel : Nat) {s : σ}, (M.loop fuel message s).1 ≠ .again := by
    intro fuel
    induction fuel with
    | zero => intro s; simp [loop]
    | succ fuel ih =>
        intro s
        rcases hstep : M.step s (message.drop (M.offset s)) with ⟨verdict, next⟩
        by_cases hagain : verdict = .again
        · subst hagain
          rw [loop_again hstep]
          exact ih
        · rw [loop_of_ne_again (by rw [hstep]; exact hagain), hstep]
          exact hagain
  exact hloop _

theorem exists_step_of_run_stop (hM : M.Resumable live R) {message : List α} {s : σ} {code : ε}
    (hs : M.Ready live message s) (h : (M.run message s).1 = .stop code) :
    ∃ t l, live t ∧ M.step t l = M.run message s := by
  revert h
  refine run_end hM (Q := fun result => result.1 = .stop code → ∃ t l, live t ∧ M.step t l = result) ?_ hs
  intro t ht _ _
  exact ⟨t, _, ht.1, rfl⟩

theorem run_keeps (hM : M.Resumable live R) {message : List α} {P : σ → Prop}
    (hstep : ∀ s, M.Ready live message s → P s → P (M.step s (message.drop (M.offset s))).2)
    {s : σ} (hs : M.Ready live message s) (h : P s) : P (M.run message s).2 := by
  revert h
  refine run_induction hM (P := fun s => P s → P (M.run message s).2) ?_ ?_ s hs
  · intro s hs hne h
    rw [run_of_ne_again hne]
    exact hstep s hs h
  · intro s next hs hagain ih h
    rw [run_again hM hs hagain]
    have := hstep s hs h
    rw [hagain] at this
    exact ih this

theorem run_preserves (hM : M.Resumable live R) {message : List α} {P : σ → Prop}
    (hstep : ∀ s l, P s → live s → P (M.step s l).2) {s : σ} (hs : M.Ready live message s)
    (h : P s) : P (M.run message s).2 :=
  run_keeps hM (fun t ht h => hstep t _ h ht.1) hs h

/-- The observations of the steps of the loop, in order, where `emit` says what is seen of a step. -/
def emitted {β : Type} (M : Machine α σ ε) (emit : σ → List α → List β) :
    Nat → List α → σ → List β
  | 0, _, _ => []
  | fuel + 1, message, s =>
      emit s (message.drop (M.offset s)) ++
        match M.step s (message.drop (M.offset s)) with
        | (.again, next) => M.emitted emit fuel message next
        | _ => []

def trace {β : Type} (M : Machine α σ ε) (emit : σ → List α → List β) (message : List α) (s : σ) :
    List β :=
  M.emitted emit (message.length + 1) message s

/-- What every step keeps, together with what has been emitted before it, a run keeps. -/
theorem trace_preserves {β : Type} (hM : M.Resumable live R) {message : List α}
    {emit : σ → List α → List β} {P : List β → σ → Prop}
    (hstep : ∀ seen s, M.Ready live message s → P seen s →
      P (seen ++ emit s (message.drop (M.offset s))) (M.step s (message.drop (M.offset s))).2)
    {s : σ} (hs : M.Ready live message s) {seen : List β} (h : P seen s) :
    P (seen ++ M.trace emit message s) (M.run message s).2 := by
  have hloop : ∀ (fuel : Nat) {s : σ} {seen : List β}, M.Ready live message s → P seen s →
      message.length - M.offset s + 1 ≤ fuel →
      P (seen ++ M.emitted emit fuel message s) (M.loop fuel message s).2 := by
    intro fuel
    induction fuel with
    | zero => intro s seen _ _ hlt; omega
    | succ fuel ih =>
        intro s seen hs h hlt
        have hnext := hstep seen s hs h
        rcases hverdict : M.step s (message.drop (M.offset s)) with ⟨verdict, next⟩
        rw [hverdict] at hnext
        cases verdict with
        | again =>
            obtain ⟨hoffset, hready⟩ := hs.again hM hverdict
            have hle := hready.2
            rw [loop_again hverdict, emitted, hverdict, ← List.append_assoc]
            exact ih hready hnext (by omega)
        | more => simpa [loop, emitted, hverdict] using hnext
        | stop code => simpa [loop, emitted, hverdict] using hnext
  exact hloop _ hs h (by omega)

/-- A step that had asked for more ends, when it accepts later, behind the bytes it was shown. -/
structure Reaches (M : Machine α σ ε) (live : σ → Prop) (ok : ε) : Prop where
  reach : ∀ {s l} t, live s → (M.step s l).1 = .more →
    (M.step s (l ++ t)).1 = .again ∨ (M.step s (l ++ t)).1 = .stop ok →
    M.offset s + l.length ≤ M.offset (M.step s (l ++ t)).2
  inside : ∀ {s l}, live s → (M.step s l).1 = .stop ok →
    M.offset s ≤ M.offset (M.step s l).2 ∧ M.offset (M.step s l).2 ≤ M.offset s + l.length

variable {ok : ε}

theorem offset_run_of_stop (hM : M.Resumable live R) (hreach : M.Reaches live ok)
    {message : List α} {s : σ} (hs : M.Ready live message s) (h : (M.run message s).1 = .stop ok) :
    M.offset s ≤ M.offset (M.run message s).2 ∧ M.offset (M.run message s).2 ≤ message.length := by
  revert h
  refine run_induction hM (P := fun s => (M.run message s).1 = .stop ok →
    M.offset s ≤ M.offset (M.run message s).2 ∧
      M.offset (M.run message s).2 ≤ message.length) ?_ ?_ s hs
  · intro s hs hne hstop
    rw [run_of_ne_again hne] at hstop ⊢
    have hinside := hreach.inside hs.1 hstop
    have hle := hs.2
    simp only [List.length_drop] at hinside
    omega
  · intro s next hs hstep ih hstop
    have hnext := hs.again hM hstep
    rw [run_again hM hs hstep] at hstop ⊢
    have := ih hstop
    omega

theorem step_run_of_more (hM : M.Resumable live R) {message : List α} {s : σ}
    (hs : M.Ready live message s) (h : (M.run message s).1 = .more) :
    (M.step (M.run message s).2 (message.drop (M.offset (M.run message s).2))).1 = .more := by
  revert h
  refine run_end hM (Q := fun result => result.1 = .more →
    (M.step result.2 (message.drop (M.offset result.2))).1 = .more) ?_ hs
  intro s hs _ hmore
  have hrel := hM.equivalence.symm (hM.more hs.1 hmore)
  rw [← hM.offset_eq hrel, ← (hM.congr _ hs.1 hrel).1]
  exact hmore

/-- A run that is taken up again and accepts ends behind the bytes it had before. -/
theorem length_le_offset_run (hM : M.Resumable live R) (hreach : M.Reaches live ok)
    {message : List α} {s : σ} (tail : List α) (hs : M.Ready live message s)
    (hmore : (M.run message s).1 = .more)
    (h : (M.run (message ++ tail) (M.run message s).2).1 = .stop ok) :
    message.length ≤ M.offset (M.run (message ++ tail) (M.run message s).2).2 := by
  have hready := ready_run_of_more hM hs hmore
  have hstuck := step_run_of_more hM hs hmore
  revert h
  generalize (M.run message s).2 = t at hready hstuck ⊢
  intro h
  have hdrop : (message ++ tail).drop (M.offset t) = message.drop (M.offset t) ++ tail :=
    List.drop_append_of_le_length hready.2
  have hle := hready.2
  rcases hstep : M.step t ((message ++ tail).drop (M.offset t)) with ⟨verdict, next⟩
  by_cases hagain : verdict = .again
  · subst hagain
    have hnext := (hready.append tail).again hM hstep
    rw [run_again hM (hready.append tail) hstep] at h ⊢
    have hforward := offset_run_of_stop hM hreach hnext.2 h
    have := hreach.reach tail hready.1 hstuck (by rw [← hdrop, hstep]; exact Or.inl rfl)
    rw [← hdrop, hstep] at this
    simp only [List.length_drop] at this
    omega
  · rw [run_of_ne_again (by rw [hstep]; exact hagain)] at h ⊢
    have := hreach.reach tail hready.1 hstuck (by rw [← hdrop]; exact Or.inr h)
    rw [← hdrop] at this
    simp only [List.length_drop] at this
    omega

end Machine

end Resume
