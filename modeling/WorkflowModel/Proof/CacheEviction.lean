import WorkflowModel.Proof.CacheRuns

/-!
# What a put evicts

A handle goes to the end of `not_use_` when its last reference is released, and nothing else is put there. So
`not_use_` is in the order of these releases, whatever the history. A `put` of a new key that finds the cache
full does not cache it. It evicts from the front of `not_use_` while the cache is over its bound, which a
lowered bound can bring about.
-/

namespace WorkflowModel.Util.LRUCache

variable {K V : Type*} {c c' : LRUCache K V} {e : Nat} {h : LRUHandle K V}

theorem listRemove_notUse (hrun : c.listRemove e = some c') :
    c'.notUse.Sublist c.notUse ∧ c'.handles = c.handles := by
  unfold listRemove at hrun
  split_ifs at hrun <;> cases hrun
  · exact ⟨List.erase_sublist, rfl⟩
  · exact ⟨.refl _, rfl⟩

theorem addRef_notUse (hrun : c.addRef e = some c') : c'.notUse.Sublist c.notUse := by
  simp only [addRef, Option.bind_eq_bind, Option.bind_eq_some_iff] at hrun
  obtain ⟨h, -, hrun⟩ := hrun
  split_ifs at hrun
  · obtain ⟨b, hb, hrun⟩ := Option.bind_eq_some_iff.1 hrun
    cases hrun
    exact (listRemove_notUse hb).1
  · cases hrun
    exact .refl _

theorem unref_notUse (hrun : c.unref e = some c') :
    c'.notUse.Sublist (c.notUse ++ [e])
      ∧ (∀ h, c.handles e = some h → h.inCache = false → c'.notUse = c.notUse) := by
  simp only [unref, Option.bind_eq_bind, Option.bind_eq_some_iff] at hrun
  obtain ⟨h, hh, hrun⟩ := hrun
  split_ifs at hrun with _ _ _ hunused
  · cases hrun
    exact ⟨List.sublist_append_left .., fun _ _ _ => rfl⟩
  · obtain ⟨a, ha, hrun⟩ := Option.bind_eq_some_iff.1 hrun
    cases hrun
    refine ⟨(listRemove_notUse ha).1.append_right _, ?_⟩
    intro h' hh' huncached
    rw [hh] at hh'
    cases hh'
    rw [huncached] at hunused
    exact absurd hunused.1 (by simp)
  · cases hrun
    exact ⟨List.sublist_append_left .., fun _ _ _ => rfl⟩

theorem eraseNode_notUse (hrun : c.eraseNode e = some c') : c'.notUse.Sublist c.notUse := by
  simp only [eraseNode, Option.bind_eq_bind, Option.bind_eq_some_iff] at hrun
  obtain ⟨h, -, hrun⟩ := hrun
  split_ifs at hrun
  obtain ⟨b, hb, hrun⟩ := Option.bind_eq_some_iff.1 hrun
  rw [(unref_notUse hrun).2 { h with inCache := false } (Function.update_self ..) rfl]
  exact (listRemove_notUse hb).1

variable [DecidableEq K]

theorem evict_notUse {goOn : LRUCache K V → Bool} {fuel : Nat} (hrun : c.evict goOn fuel = some c') :
    c'.notUse.Sublist c.notUse := by
  induction fuel generalizing c with
  | zero =>
      unfold evict at hrun
      split_ifs at hrun
      · rcases hlist : c.notUse with _ | ⟨e, rest⟩ <;> simp only [hlist] at hrun
        · cases hrun
          rw [hlist]
        · contradiction
      · cases hrun
        exact .refl _
  | succ fuel ih =>
      unfold evict at hrun
      split_ifs at hrun
      · rcases hlist : c.notUse with _ | ⟨e, rest⟩ <;> simp only [hlist] at hrun
        · cases hrun
          rw [hlist]
        · obtain ⟨h, -, hrun⟩ := Option.bind_eq_some_iff.1 hrun
          split_ifs at hrun
          obtain ⟨b, hb, hrun⟩ := Option.bind_eq_some_iff.1 hrun
          exact (ih hrun).trans (eraseNode_notUse hb)
      · cases hrun
        exact .refl _

theorem evictOver_notUse (hrun : c.evictOver = some c') : c'.notUse.Sublist c.notUse := by
  unfold evictOver at hrun
  split_ifs at hrun
  · exact evict_notUse hrun
  · cases hrun
    exact .refl _

theorem putCached_notUse {key : K} {value : V} (hrun : c.putCached key value = some c') :
    c'.notUse.Sublist c.notUse := by
  simp only [putCached] at hrun
  split at hrun
  · obtain ⟨b, hb, hrun⟩ := Option.bind_eq_some_iff.1 hrun
    cases hrun
    have herase := eraseNode_notUse hb
    exact herase
  · cases hrun
    exact .refl _

theorem put_notUse {key : K} {value : V} {p : LRUCache K V × Nat} (hrun : c.put key value = some p) :
    p.1.notUse.Sublist c.notUse := by
  simp only [put, Option.bind_eq_bind] at hrun
  split_ifs at hrun
  · obtain ⟨b, hb, hrun⟩ := Option.bind_eq_some_iff.1 hrun
    obtain ⟨c', hover, hrun⟩ := Option.bind_eq_some_iff.1 hrun
    cases hrun
    exact (evictOver_notUse hover).trans (putCached_notUse hb)
  · simp only [Option.bind_some, Option.bind_eq_some_iff] at hrun
    obtain ⟨c', hover, hrun⟩ := hrun
    cases hrun
    have hend := evictOver_notUse hover
    exact hend

theorem del_notUse {key : K} (hrun : c.del key = some c') : c'.notUse.Sublist c.notUse := by
  unfold del at hrun
  split at hrun
  · have herase := eraseNode_notUse hrun
    exact herase
  · cases hrun
    exact .refl _

theorem get_notUse {key : K} {p : LRUCache K V × Option Nat} (hrun : c.get key = some p) :
    p.1.notUse.Sublist c.notUse := by
  unfold get at hrun
  split at hrun
  · obtain ⟨a, ha, hrun⟩ := Option.bind_eq_some_iff.1 hrun
    cases hrun
    exact addRef_notUse ha
  · cases hrun
    exact .refl _

end WorkflowModel.Util.LRUCache

namespace WorkflowModel.Util.CacheUse

open LRUCache

variable {K V : Type*} [DecidableEq K] {u u' : CacheUse K V} {op : Op K V}
  {history : List (CacheUse K V × Op K V)}

theorem step_notUse (hstep : u.step op = some u') :
    u'.cache.notUse.Sublist u.cache.notUse
      ∨ ∃ e, op = .release (some e) ∧ u'.cache.notUse.Sublist (u.cache.notUse ++ [e]) := by
  cases op with
  | put key value =>
      obtain ⟨p, hput, hstep⟩ := Option.bind_eq_some_iff.1 hstep
      cases hstep
      exact .inl (put_notUse hput)
  | get key =>
      obtain ⟨p, hget, hstep⟩ := Option.bind_eq_some_iff.1 hstep
      cases hstep
      exact .inl (get_notUse hget)
  | del key =>
      obtain ⟨c, hdel, hstep⟩ := Option.bind_eq_some_iff.1 hstep
      cases hstep
      exact .inl (del_notUse hdel)
  | release handle =>
      obtain ⟨c, hrelease, hstep⟩ := Option.bind_eq_some_iff.1 hstep
      cases hstep
      cases handle with
      | none =>
          cases hrelease
          exact .inl (.refl _)
      | some e => exact .inr ⟨e, rfl, (unref_notUse hrelease).1⟩
  | prune =>
      obtain ⟨c, hprune, hstep⟩ := Option.bind_eq_some_iff.1 hstep
      cases hstep
      exact .inl (evict_notUse hprune)
  | setMaxSize maxSize =>
      cases hstep
      exact .inl (.refl _)

def releases (e : Nat) : Op K V → Bool
  | .release (some handle) => handle == e
  | _ => false

/-- The number of calls up to the last release of `e`, and 0 if it was never released. -/
def lastRelease (history : List (CacheUse K V × Op K V)) (e : Nat) : Nat :=
  history.length - history.reverse.findIdx fun call => releases e call.2

omit [DecidableEq K] in
theorem lastRelease_append (history : List (CacheUse K V × Op K V)) (u : CacheUse K V) (op : Op K V)
    (e : Nat) : lastRelease (history ++ [(u, op)]) e
      = if releases e op then history.length + 1 else lastRelease history e := by
  simp only [lastRelease, List.reverse_append, List.reverse_singleton, List.singleton_append,
    List.length_append, List.length_singleton, List.findIdx_cons]
  cases releases e op <;> simp

omit [DecidableEq K] in
theorem lastRelease_le (history : List (CacheUse K V × Op K V)) (e : Nat) :
    lastRelease history e ≤ history.length := Nat.sub_le ..

def InOrder (history : List (CacheUse K V × Op K V)) (u : CacheUse K V) : Prop :=
  u.cache.notUse.Pairwise fun e e' => lastRelease history e < lastRelease history e'

theorem Sound.notMem_held (hu : Sound u) {e : Nat} (he : e ∈ u.cache.notUse) : e ∉ u.held := by
  obtain ⟨h, hh, hcached, hone⟩ := (hu.agreed.accounted.mem_notUse e).1 he
  have hcounted := hu.agreed.accounted.counted e h hh
  rw [hcached, if_pos rfl, hone] at hcounted
  exact List.count_eq_zero.1 (by omega)

theorem InOrder.step (horder : InOrder history u) (hu : Sound u) (hallowed : u.Allowed op)
    (hstep : u.step op = some u') : InOrder (history ++ [(u, op)]) u' := by
  have hkept : ∀ e ∈ u.cache.notUse, lastRelease (history ++ [(u, op)]) e = lastRelease history e := by
    intro e he
    rw [lastRelease_append, if_neg]
    cases op with
    | release handle =>
        cases handle with
        | none => simp [releases]
        | some e' =>
            have hne : e' ≠ e := by
              rintro rfl
              exact hu.notMem_held he hallowed
            simpa [releases] using hne
    | put | get | del | prune | setMaxSize => simp [releases]
  have hold : u.cache.notUse.Pairwise fun e e' =>
      lastRelease (history ++ [(u, op)]) e < lastRelease (history ++ [(u, op)]) e' := by
    refine horder.imp_of_mem ?_
    intro e e' he he' hlt
    rw [hkept e he, hkept e' he']
    exact hlt
  obtain hsub | ⟨e, rfl, hsub⟩ := step_notUse hstep
  · exact hold.sublist hsub
  · refine List.Pairwise.sublist hsub (List.pairwise_append.2 ⟨hold, List.pairwise_singleton .., ?_⟩)
    intro e' he' i hi
    rw [List.mem_singleton] at hi
    rw [hi, hkept e' he', lastRelease_append, if_pos (by simp [releases])]
    exact Nat.lt_succ_of_le (lastRelease_le history e')

theorem Run.inOrder (hrun : Run history u) : InOrder history u := by
  induction hrun with
  | start => exact List.Pairwise.nil
  | step hrun hallowed hstep ih => exact ih.step hrun.sound hallowed hstep

/-- The call is a `put` that keeps its value out of the cache and takes `evicted` out of it, the handles out of
use whose last references were released the longest ago. -/
structure KeptOut (history : List (CacheUse K V × Op K V)) (u u' : CacheUse K V) (key : K) (value : V)
    (evicted : List Nat) : Prop where
  returned : u'.held = u.cache.count :: u.held
    ∧ u'.cache.handles u.cache.count = some { key := key, value := value, ref := 1, inCache := false }
  missed : ∃ c, u'.cache.get key = some (c, none)
  removed : ∀ k e, u'.cache.cacheMap.lookup k = some e ↔
    u.cache.cacheMap.lookup k = some e ∧ e ∉ evicted
  size : u'.cache.size + evicted.length = u.cache.size
  length_evicted : evicted.length = min (u.cache.size - u.cache.maxSize) u.cache.notUse.length
  unused : ∀ e ∈ evicted, e ∈ u.cache.notUse ∧ e ∉ u.held
  oldest : ∀ e ∈ evicted, ∀ e' ∈ u.cache.notUse, e' ∉ evicted → lastRelease history e < lastRelease history e'

theorem put_keptOut (hrun : Run history u) {key : K} (value : V) (hbound : 0 < u.cache.maxSize)
    (hfull : u.cache.maxSize ≤ u.cache.size) (habsent : u.cache.cacheMap.lookup key = none) :
    ∃ u' evicted, u.step (.put key value) = some u' ∧ KeptOut history u u' key value evicted := by
  have hu := hrun.sound
  obtain ⟨c', hput, hc', hcount, -, hout⟩ := hu.agreed.put key value
  obtain ⟨hsize, hcaches⟩ := hout (by omega)
  have hmapped : ∀ k e, c'.cacheMap.lookup k = some e ↔
      u.cache.cacheMap.lookup k = some e ∧ e ∉ u.cache.overflow := by
    intro k e
    rw [hc'.mapped, hcaches, hu.agreed.mapped, and_comm]
  have hmissing : c'.cacheMap.lookup key = none := by
    rw [Option.eq_none_iff_forall_ne_some]
    intro e he
    rw [hmapped, habsent] at he
    exact absurd he.1 (by simp)
  have hstep : u.step (.put key value) = some
      { cache := c', held := u.cache.count :: u.held, made := u.made ++ [(key, value)],
        lastPut := Function.update u.lastPut key (some u.cache.count) } := by
    simp only [CacheUse.step, hput, Option.bind_eq_bind, Option.bind_some]
  refine ⟨_, u.cache.overflow, hstep, ?_⟩
  constructor
  case returned =>
    refine ⟨rfl, ?_⟩
    rcases hh : c'.handles u.cache.count with _ | h
    · have hgone := hc'.accounted.gone _ hh
      rw [Function.update_self] at hgone
      contradiction
    · have hcontent := hc'.accounted.content _ h hh
      rw [Function.update_self] at hcontent
      have hcounted := hc'.accounted.counted _ h hh
      rw [Function.update_self] at hcounted
      have huncached : h.inCache = false := by
        by_contra hcached
        have hnew := (hcaches u.cache.count h.key).1 ⟨h, hh, by simpa using hcached, rfl⟩
        exact hu.agreed.accounted.not_caches_count h.key hnew.2
      obtain ⟨k, v, ref, inCache⟩ := h
      simp only [Option.some.injEq, Prod.mk.injEq] at hcontent
      simp only at huncached hcounted
      rw [huncached] at hcounted
      simp [hcontent.1, hcontent.2, huncached, hcounted]
  case missed => exact ⟨c', by rw [LRUCache.get, hmissing]⟩
  case removed => exact hmapped
  case size => exact hsize
  case length_evicted => exact List.length_take ..
  case unused =>
    intro e he
    have hin : e ∈ u.cache.notUse := List.mem_of_mem_take he
    exact ⟨hin, hu.notMem_held hin⟩
  case oldest =>
    intro e he e' he' hstays
    have horder := hrun.inOrder
    unfold InOrder at horder
    rw [← List.take_append_drop (u.cache.size - u.cache.maxSize) u.cache.notUse] at horder he'
    have hlate := (List.mem_append.1 he').resolve_left hstays
    exact (List.pairwise_append.1 horder).2.2 e he e' hlate

/-- Three values are released in the order 1, 0, 2, and then the bound is lowered. -/
def loweredRun : List (Op Nat Nat) :=
  [.put 1 10, .put 2 20, .put 3 30, .release (some 1), .release (some 0), .release (some 2), .setMaxSize 1]

theorem put_keptOut_loweredRun : ∃ history, ∃ u : CacheUse Nat Nat, Run history u
    ∧ u.cache.notUse = [1, 0, 2] ∧ u.cache.maxSize = 1
    ∧ ∃ u' evicted, u.step (.put 4 40) = some u' ∧ KeptOut history u u' 4 40 evicted := by
  have hends : (exec loweredRun).map (fun p => (p.2.cache.notUse, p.2.cache.maxSize, p.2.cache.size,
      p.2.cache.cacheMap.lookup 4)) = some ([1, 0, 2], 1, 3, none) := by decide +kernel
  obtain ⟨p, hexec, hp⟩ := Option.map_eq_some_iff.1 hends
  simp only [Prod.mk.injEq] at hp
  obtain ⟨hlist, hmax, hsize, habsent⟩ := hp
  exact ⟨p.1, p.2, run_of_exec hexec, hlist, hmax,
    put_keptOut (run_of_exec hexec) 40 (by omega) (by omega) habsent⟩

/-- A cache at its bound with a value out of use: the new key is not cached. -/
theorem not_cached_fullPut : ¬ ∀ history, ∀ u u' : CacheUse Nat Nat, Run history u →
    ∀ key value, 0 < u.cache.maxSize → u.cache.size = u.cache.maxSize → u.cache.notUse ≠ [] →
      u.cache.cacheMap.lookup key = none → u.step (.put key value) = some u' →
        ∃ e, u'.cache.cacheMap.lookup key = some e := by
  intro hcached
  have hends : (exec [Op.setMaxSize 1, .put 1 10, .release (some 0)]).map (fun p => (p.2.cache.notUse,
      p.2.cache.maxSize, p.2.cache.size, p.2.cache.cacheMap.lookup 2,
      (p.2.step (.put 2 20)).map fun u' => u'.cache.cacheMap.lookup 2)) = some ([0], 1, 1, none, some none) := by
    decide +kernel
  obtain ⟨p, hexec, hp⟩ := Option.map_eq_some_iff.1 hends
  simp only [Prod.mk.injEq] at hp
  obtain ⟨hlist, hmax, hsize, habsent, hput⟩ := hp
  obtain ⟨u', hstep, hmissed⟩ := Option.map_eq_some_iff.1 hput
  obtain ⟨e, he⟩ := hcached p.1 p.2 u' (run_of_exec hexec) 2 20 (by omega) (by omega) (by simp [hlist])
    habsent hstep
  rw [hmissed] at he
  cases he

end WorkflowModel.Util.CacheUse
