import WorkflowModel.Proof.CacheMap
import Mathlib.Data.List.Dedup

/-!
# A cache and its callers

What the cache writes down about its handles agrees in every state between two calls, whatever the calls were.
A `put` that finds the cache full hands its value only to the caller; the value that is cached under the key
stays, unless the same `put` evicts it.
-/

namespace WorkflowModel.Util.CacheUse

open LRUCache

variable {K V : Type*} [DecidableEq K] {u u' : CacheUse K V} {op : Op K V}
  {history : List (CacheUse K V × Op K V)}

/-- The references and the origin of each handle, as the callers know them. -/
structure Sound (u : CacheUse K V) : Prop where
  agreed : Agreed u.cache (fun e => u.held.count e) (fun e => u.made[e]?)
  length_made : u.made.length = u.cache.count

theorem sound_start : Sound (start : CacheUse K V) := by
  refine ⟨?_, rfl⟩
  exact agreed_empty

theorem count_cons_update {l : List Nat} {e : Nat} (hnew : l.count e = 0) :
    (fun i => (e :: l).count i) = Function.update (fun i => l.count i) e 1 := by
  funext i
  by_cases hie : i = e
  · subst hie
    simp [hnew]
  · have hne : e ≠ i := fun hei => hie hei.symm
    simp [hie, hne]

theorem getElem?_append_update {α : Type*} (l : List α) (x : α) :
    (fun i => (l ++ [x])[i]?) = Function.update (fun i => l[i]?) l.length (some x) := by
  funext i
  by_cases hie : i = l.length
  · subst hie
    simp
  · rw [Function.update_of_ne hie]
    rcases lt_or_gt_of_ne hie with hlt | hgt
    · rw [List.getElem?_append_left hlt]
    · rw [List.getElem?_eq_none (by simp; omega), List.getElem?_eq_none (by omega)]

theorem count_erase_update {l : List Nat} {e : Nat} :
    (fun i => (l.erase e).count i) = Function.update (fun i => l.count i) e (l.count e - 1) := by
  funext i
  by_cases hie : i = e
  · subst hie
    simp
  · rw [Function.update_of_ne hie, List.count_erase_of_ne hie]

theorem count_toList_append {l : List Nat} {o : Option Nat} :
    (fun i => (o.toList ++ l).count i) = fun i => l.count i + if o = some i then 1 else 0 := by
  funext i
  cases o with
  | none => simp
  | some e => simp [List.count_cons]

/-- What a call leaves of the cached handles, and of the latest handle of each key. -/
def Changed (u : CacheUse K V) : Op K V → CacheUse K V → Prop
  | .put key _, u' =>
      u'.lastPut = Function.update u.lastPut key (some u.cache.count)
        ∧ (u.cache.maxSize = 0 ∨ u.cache.size < u.cache.maxSize →
            ∀ i k, u'.cache.Caches i k → k = key ∧ i = u.cache.count ∨ k ≠ key ∧ u.cache.Caches i k)
        ∧ (¬ (u.cache.maxSize = 0 ∨ u.cache.size < u.cache.maxSize) →
            ∀ i k, u'.cache.Caches i k ↔ i ∉ u.cache.overflow ∧ u.cache.Caches i k)
  | _, u' => u'.lastPut = u.lastPut ∧ ∀ i k, u'.cache.Caches i k → u.cache.Caches i k

theorem Sound.step (hu : Sound u) (hallowed : u.Allowed op) :
    ∃ u', u.step op = some u' ∧ Sound u' ∧ u.Changed op u' := by
  obtain ⟨hagreed, hlength⟩ := hu
  cases op with
  | put key value =>
      obtain ⟨c', hrun, hc', hcount, hroom, hfull⟩ := hagreed.put key value
      have hnew : u.held.count u.cache.count = 0 :=
        hagreed.accounted.gone _ (hagreed.accounted.fresh _ le_rfl)
      have hstep : u.step (.put key value) = some
          { cache := c', held := u.cache.count :: u.held, made := u.made ++ [(key, value)],
            lastPut := Function.update u.lastPut key (some u.cache.count) } := by
        simp only [CacheUse.step, hrun, Option.bind_eq_bind, Option.bind_some]
      refine ⟨_, hstep, ⟨?_, ?_⟩, rfl, hroom, fun hnone => (hfull hnone).2⟩
      · simp only [count_cons_update hnew, getElem?_append_update, hlength]
        exact hc'
      · simp only [List.length_append, List.length_singleton, hlength, hcount]
  | get key =>
      obtain ⟨c', o, hrun, -, hc', hcount, hcaches⟩ := hagreed.get key
      have hstep : u.step (.get key) = some { u with cache := c', held := o.toList ++ u.held } := by
        simp only [CacheUse.step, hrun, Option.bind_eq_bind, Option.bind_some]
      refine ⟨_, hstep, ⟨?_, hlength.trans hcount.symm⟩, rfl, fun i k => (hcaches i k).1⟩
      simp only [count_toList_append]
      exact hc'
  | del key =>
      obtain ⟨c', hrun, hc', hcount, hcaches⟩ := hagreed.del key
      have hstep : u.step (.del key) = some { u with cache := c' } := by
        simp only [CacheUse.step, hrun, Option.bind_eq_bind, Option.bind_some]
      exact ⟨_, hstep, ⟨hc', hlength.trans hcount.symm⟩, rfl, hcaches⟩
  | release handle =>
      cases handle with
      | none => exact ⟨u, rfl, ⟨hagreed, hlength⟩, rfl, fun _ _ hi => hi⟩
      | some e =>
          obtain ⟨c', hrun, hc', hcount, hcaches⟩ := hagreed.release (List.count_pos_iff.2 hallowed)
          have hstep : u.step (.release (some e)) = some { u with cache := c', held := u.held.erase e } := by
            simp only [CacheUse.step, hrun, Option.bind_eq_bind, Option.bind_some, Option.elim_some]
          refine ⟨_, hstep, ⟨?_, hlength.trans hcount.symm⟩, rfl, fun i k => (hcaches i k).1⟩
          simp only [count_erase_update]
          exact hc'
  | prune =>
      obtain ⟨c', hrun, hc', hcount, hcaches⟩ := hagreed.prune
      have hstep : u.step .prune = some { u with cache := c' } := by
        simp only [CacheUse.step, hrun, Option.bind_eq_bind, Option.bind_some]
      exact ⟨_, hstep, ⟨hc', hlength.trans hcount.symm⟩, rfl, hcaches⟩
  | setMaxSize maxSize =>
      refine ⟨_, rfl, ⟨⟨?_, hagreed.mapped⟩, hlength⟩, rfl, fun _ _ hi => hi⟩
      obtain ⟨hfresh, hcounted, hneeded, hgone, hnot, hin, hnodup, hnodup', hsize, hdel, hmem, hval, hcont⟩ :=
        hagreed.accounted
      exact ⟨hfresh, hcounted, hneeded, hgone, hnot, hin, hnodup, hnodup', hsize, hdel, hmem, hval, hcont⟩

theorem Run.sound (hrun : Run history u) : Sound u := by
  induction hrun with
  | start => exact sound_start
  | step _ hallowed hstep ih =>
      obtain ⟨u', hstep', hsound, -⟩ := ih.step hallowed
      rw [hstep] at hstep'
      cases hstep'
      exact hsound

structure Represented (u : CacheUse K V) : Prop where
  size : u.cache.size = u.cache.cacheMap.keys.length
  mapped : ∀ key e, u.cache.cacheMap.lookup key = some e ↔
    ∃ h, u.cache.handles e = some h ∧ h.inCache = true ∧ h.key = key
  ref : ∀ e h, u.cache.handles e = some h → h.ref = u.held.count e + if h.inCache = true then 1 else 0
  notUse : ∀ e, e ∈ u.cache.notUse ↔ ∃ h, u.cache.handles e = some h ∧ h.inCache = true ∧ h.ref = 1
  inUse : ∀ e, e ∈ u.cache.inUse ↔ ∃ h, u.cache.handles e = some h ∧ h.inCache = true ∧ 1 < h.ref
  nodup_lists : (u.cache.notUse ++ u.cache.inUse).Nodup
  kept : ∀ e key value, u.made[e]? = some (key, value) → (u.cache.cacheMap.lookup key = some e ∨ e ∈ u.held) →
    (u.cache.deleted.map Prod.fst).count e = 0
      ∧ ∃ h, u.cache.handles e = some h ∧ h.key = key ∧ h.value = value
  deleted : ∀ e key value, u.made[e]? = some (key, value) →
    ¬ (u.cache.cacheMap.lookup key = some e ∨ e ∈ u.held) →
      (u.cache.deleted.map Prod.fst).count e = 1 ∧ (e, value) ∈ u.cache.deleted
  deleted_made : ∀ p ∈ u.cache.deleted, ∃ key, u.made[p.1]? = some (key, p.2)

theorem Sound.nodup_lists (hu : Sound u) : (u.cache.notUse ++ u.cache.inUse).Nodup := by
  have haccounted := hu.agreed.accounted
  apply haccounted.nodup_notUse.append haccounted.nodup_inUse
  intro e hnotUse
  exact haccounted.notMem_inUse hnotUse

/-- The keys of the map are those of the handles in the two lists. -/
theorem Sound.size_eq (hu : Sound u) : u.cache.size = u.cache.cacheMap.keys.length := by
  have haccounted := hu.agreed.accounted
  let keyOf : Nat → Option K := fun e => (u.cache.handles e).map LRUHandle.key
  have hlisted : ∀ e ∈ u.cache.notUse ++ u.cache.inUse, ∃ key, u.cache.Caches e key ∧ keyOf e = some key := by
    intro e he
    rcases List.mem_append.1 he with hin | hin
    · obtain ⟨h, hh, hcached, -⟩ := (haccounted.mem_notUse e).1 hin
      exact ⟨h.key, ⟨h, hh, hcached, rfl⟩, by simp [keyOf, hh]⟩
    · obtain ⟨h, hh, hcached, -⟩ := (haccounted.mem_inUse e).1 hin
      exact ⟨h.key, ⟨h, hh, hcached, rfl⟩, by simp [keyOf, hh]⟩
  have hperm : ((u.cache.notUse ++ u.cache.inUse).map keyOf).Perm (u.cache.cacheMap.keys.map some) := by
    apply (List.perm_ext_iff_of_nodup ?_ ?_).2
    · intro o
      simp only [List.mem_map]
      constructor
      · rintro ⟨e, he, rfl⟩
        obtain ⟨key, hcaches, hkey⟩ := hlisted e he
        refine ⟨key, ?_, hkey.symm⟩
        rw [← AList.mem_keys, ← AList.lookup_isSome, (hu.agreed.mapped key e).2 hcaches]
        rfl
      · rintro ⟨key, hin, rfl⟩
        rw [← AList.mem_keys, ← AList.lookup_isSome] at hin
        obtain ⟨e, he⟩ := Option.isSome_iff_exists.1 hin
        have hcaches := (hu.agreed.mapped key e).1 he
        refine ⟨e, List.mem_append.2 (hcaches.mem haccounted), ?_⟩
        obtain ⟨h, hh, -, rfl⟩ := hcaches
        simp [keyOf, hh]
    · apply hu.nodup_lists.map_on
      intro e he i hi hsame
      obtain ⟨key, hcaches, hkey⟩ := hlisted e he
      obtain ⟨key', hcaches', hkey'⟩ := hlisted i hi
      rw [hkey, hkey'] at hsame
      cases hsame
      have := (hu.agreed.mapped key e).2 hcaches
      rw [(hu.agreed.mapped key i).2 hcaches'] at this
      cases this
      rfl
    · exact u.cache.cacheMap.keys_nodup.map (Option.some_injective K)
  have hlength := hperm.length_eq
  rw [List.length_map, List.length_map, List.length_append] at hlength
  rw [haccounted.size, hlength]

theorem Sound.represented (hu : Sound u) : Represented u := by
  have haccounted := hu.agreed.accounted
  -- a handle that was made is in the memory or among the deleted, and it is needed as long as it is in the memory
  have hcount : ∀ e, (u.cache.deleted.map Prod.fst).count e
      = if e < u.cache.count ∧ u.cache.handles e = none then 1 else 0 := by
    intro e
    rw [haccounted.nodup_deleted.count]
    simp only [haccounted.mem_deleted]
  have hneeded : ∀ e key value, u.made[e]? = some (key, value) →
      (u.cache.handles e = none ↔ ¬ (u.cache.cacheMap.lookup key = some e ∨ e ∈ u.held)) := by
    intro e key value hmade
    constructor
    · rintro hnone (hin | hheld)
      · obtain ⟨h, hh, -⟩ := (hu.agreed.mapped key e).1 hin
        rw [hnone] at hh
        cases hh
      · have := haccounted.gone e hnone
        have := List.count_pos_iff.2 hheld
        omega
    · intro hout
      rcases hh : u.cache.handles e with _ | h
      · rfl
      · have hcounted := haccounted.counted e h hh
        have hpos := haccounted.needed e h hh
        have hcontent := haccounted.content e h hh
        rw [hmade] at hcontent
        cases hcontent
        by_cases hcached : h.inCache = true
        · exact absurd (Or.inl ((hu.agreed.mapped _ e).2 ⟨h, hh, hcached, rfl⟩)) hout
        · rw [if_neg hcached] at hcounted
          refine absurd (Or.inr (List.count_pos_iff.1 ?_)) hout
          omega
  refine ⟨hu.size_eq, hu.agreed.mapped, haccounted.counted, haccounted.mem_notUse, haccounted.mem_inUse,
    hu.nodup_lists, ?_, ?_, haccounted.deletedValue⟩
  · intro e key value hmade hin
    rcases hh : u.cache.handles e with _ | h
    · exact absurd hin ((hneeded e key value hmade).1 hh)
    · refine ⟨by rw [hcount, hh]; simp, h, rfl, ?_⟩
      have hcontent := haccounted.content e h hh
      rw [hmade] at hcontent
      cases hcontent
      exact ⟨rfl, rfl⟩
  · intro e key value hmade hout
    have hnone := (hneeded e key value hmade).2 hout
    have hlt : e < u.cache.count := by
      rw [← hu.length_made]
      exact (List.getElem?_eq_some_iff.1 hmade).1
    refine ⟨by rw [hcount, if_pos ⟨hlt, hnone⟩], ?_⟩
    obtain ⟨p, hp, hpe⟩ := List.mem_map.1 ((haccounted.mem_deleted e).2 ⟨hlt, hnone⟩)
    obtain ⟨key', hp'⟩ := haccounted.deletedValue p hp
    rw [hpe, hmade] at hp'
    cases hp'
    rw [← hpe]
    exact hp

/-- The account of the cache agrees between any two calls, and no call fails. -/
theorem represented_of_run (hrun : Run history u) :
    Represented u ∧ ∀ op, u.Allowed op → (u.step op).isSome = true := by
  refine ⟨hrun.sound.represented, ?_⟩
  intro op hallowed
  obtain ⟨u', hstep, -⟩ := hrun.sound.step hallowed
  rw [hstep]
  rfl

theorem Run.of_execFrom {ops : List (Op K V)} {p : List (CacheUse K V × Op K V) × CacheUse K V}
    (hrun : Run history u) (hexec : execFrom history u ops = some p) : Run p.1 p.2 := by
  induction ops generalizing history u with
  | nil =>
      cases hexec
      exact hrun
  | cons op ops ih =>
      rw [execFrom] at hexec
      split at hexec
      · rename_i hallowed
        split at hexec
        · rename_i u' hstep
          exact ih (hrun.step hallowed hstep) hexec
        · cases hexec
      · cases hexec

theorem run_of_exec {ops : List (Op K V)} {p : List (CacheUse K V × Op K V) × CacheUse K V}
    (hexec : exec ops = some p) : Run p.1 p.2 := Run.start.of_execFrom hexec

/-- One handle is replaced while a caller holds it, and one is evicted under a lower bound. -/
def replacedRun : List (Op Nat Nat) :=
  [.put 1 10, .put 1 20, .put 2 30, .release (some 2), .setMaxSize 1, .put 3 40]

theorem represented_replacedRun : ∃ history, ∃ u : CacheUse Nat Nat, Run history u
    ∧ u.cache.deleted = [(2, 30)] ∧ u.held = [3, 1, 0]
    ∧ Represented u ∧ ∀ op, u.Allowed op → (u.step op).isSome = true := by
  have hends : (exec replacedRun).map (fun p => (p.2.cache.deleted, p.2.held)) = some ([(2, 30)], [3, 1, 0]) := by
    decide +kernel
  obtain ⟨p, hexec, hp⟩ := Option.map_eq_some_iff.1 hends
  exact ⟨p.1, p.2, run_of_exec hexec, congrArg Prod.fst hp, congrArg Prod.snd hp,
    represented_of_run (run_of_exec hexec)⟩

/-- What a `get` returns is the handle of the latest `put` of its key, with the value of that `put`. -/
def Fresh (u : CacheUse K V) : Prop :=
  ∀ key c e, u.cache.get key = some (c, some e) →
    u.lastPut key = some e ∧ ∃ h, c.handles e = some h ∧ u.made[e]? = some (key, h.value)

/-- A `put` caches its value, or it evicts what is cached under its key. -/
def Replaces (u : CacheUse K V) : Op K V → Prop
  | .put key _ => u.cache.maxSize = 0 ∨ u.cache.size < u.cache.maxSize
      ∨ ∀ e, u.cache.cacheMap.lookup key = some e → e ∈ u.cache.overflow
  | _ => True

/-- Every cached handle is the one of the latest `put` of its key. -/
def Latest (u : CacheUse K V) : Prop := ∀ e key, u.cache.Caches e key → u.lastPut key = some e

theorem Sound.fresh_iff_latest (hu : Sound u) : Fresh u ↔ Latest u := by
  constructor
  · intro hfresh e key hcaches
    obtain ⟨c', o, hget, ho, -⟩ := hu.agreed.get key
    rw [(hu.agreed.mapped key e).2 hcaches] at ho
    rw [ho] at hget
    exact (hfresh key c' e hget).1
  · intro hlatest key c e hget
    obtain ⟨c', o, hget', ho, hc', -, hcaches⟩ := hu.agreed.get key
    rw [hget] at hget'
    cases hget'
    have hin := (hu.agreed.mapped key e).1 ho.symm
    obtain ⟨h, hh, -, rfl⟩ := (hcaches e key).2 hin
    exact ⟨hlatest e _ hin, h, hh, hc'.accounted.content e h hh⟩

/-- The step: a call that keeps the values fresh replaces, and the other way round. -/
theorem Latest.step (hu : Sound u) (hlatest : Latest u) (hchanged : u.Changed op u') :
    Latest u' ↔ Replaces u op := by
  cases op with
  | put key value =>
      obtain ⟨hlast, hroom, hfull⟩ := hchanged
      constructor
      · intro hlatest'
        by_cases hcan : u.cache.maxSize = 0 ∨ u.cache.size < u.cache.maxSize
        · rcases hcan with hzero | hlt
          · exact Or.inl hzero
          · exact Or.inr (Or.inl hlt)
        · refine Or.inr (Or.inr ?_)
          intro e hin
          by_contra hstays
          -- the old handle is still there, but the new one is the latest
          have hold := (hu.agreed.mapped key e).1 hin
          have hnew := hlatest' e key ((hfull hcan e key).2 ⟨hstays, hold⟩)
          rw [hlast, Function.update_self] at hnew
          cases hnew
          exact hu.agreed.accounted.not_caches_count key hold
      · intro hreplaces e k hcaches
        rw [hlast]
        by_cases hcan : u.cache.maxSize = 0 ∨ u.cache.size < u.cache.maxSize
        · rcases hroom hcan e k hcaches with ⟨rfl, rfl⟩ | ⟨hk, hold⟩
          · exact Function.update_self ..
          · rw [Function.update_of_ne hk]
            exact hlatest e k hold
        · obtain ⟨hstays, hold⟩ := (hfull hcan e k).1 hcaches
          have hk : k ≠ key := by
            rintro rfl
            rcases hreplaces with hzero | hlt | hevicts
            · exact hcan (Or.inl hzero)
            · exact hcan (Or.inr hlt)
            · exact hstays (hevicts e ((hu.agreed.mapped k e).2 hold))
          rw [Function.update_of_ne hk]
          exact hlatest e k hold
  | get | del | release | prune | setMaxSize =>
      obtain ⟨hlast, hcaches⟩ := hchanged
      refine ⟨fun _ => trivial, ?_⟩
      intro _ e k hin
      rw [hlast]
      exact hlatest e k (hcaches e k hin)

theorem Run.latest_iff (hrun : Run history u) :
    (∀ p ∈ history, Latest p.1) ∧ Latest u ↔ ∀ p ∈ history, Replaces p.1 p.2 := by
  induction hrun with
  | start =>
      simp only [List.not_mem_nil, false_implies, implies_true, true_and, iff_true]
      rintro e key ⟨h, hh, -⟩
      cases hh
  | @step history u u' op hrun hallowed hstep ih =>
      obtain ⟨v, hstep', -, hchanged⟩ := hrun.sound.step hallowed
      rw [hstep] at hstep'
      cases hstep'
      simp only [List.forall_mem_append, List.forall_mem_singleton]
      rw [← ih]
      constructor
      · rintro ⟨⟨hhistory, hlatest⟩, hlatest'⟩
        exact ⟨⟨hhistory, hlatest⟩, (hlatest.step hrun.sound hchanged).1 hlatest'⟩
      · rintro ⟨⟨hhistory, hlatest⟩, hreplaces⟩
        exact ⟨⟨hhistory, hlatest⟩, (hlatest.step hrun.sound hchanged).2 hreplaces⟩

theorem Run.sound_history (hrun : Run history u) : ∀ p ∈ history, Sound p.1 := by
  induction hrun with
  | start => simp
  | step hrun _ _ ih =>
      simp only [List.forall_mem_append, List.forall_mem_singleton]
      exact ⟨ih, hrun.sound⟩

/-- In a run every value is fresh if and only if every `put` replaces. -/
theorem fresh_iff_replaces (hrun : Run history u) :
    (∀ p ∈ history, Fresh p.1) ∧ Fresh u ↔ ∀ p ∈ history, Replaces p.1 p.2 := by
  rw [← hrun.latest_iff, hrun.sound.fresh_iff_latest]
  apply and_congr_left
  intro _
  apply forall₂_congr
  intro p hp
  exact (hrun.sound_history p hp).fresh_iff_latest

/-- A key is replaced under a bound. -/
theorem fresh_boundedRun : ∃ history, ∃ u : CacheUse Nat Nat, Run history u ∧ history.length = 3
    ∧ u.lastPut 1 = some 1
    ∧ ((∀ p ∈ history, Fresh p.1) ∧ Fresh u ↔ ∀ p ∈ history, Replaces p.1 p.2) := by
  have hends : (exec [Op.setMaxSize 2, .put 1 10, .put 1 20]).map
      (fun p => (p.1.length, p.2.lastPut 1)) = some (3, some 1) := by decide +kernel
  obtain ⟨p, hexec, hp⟩ := Option.map_eq_some_iff.1 hends
  exact ⟨p.1, p.2, run_of_exec hexec, congrArg Prod.fst hp, congrArg Prod.snd hp,
    fresh_iff_replaces (run_of_exec hexec)⟩

/-- A full cache keeps the first value of a key, and hands the second one only to the caller. -/
theorem stale_fullRun : ¬ ∀ history, ∀ u : CacheUse Nat Nat, Run history u → Fresh u := by
  intro hfresh
  have hends : (exec [Op.setMaxSize 1, .put 1 10, .put 1 20]).map
      (fun p => (p.2.lastPut 1, (p.2.cache.get 1).map Prod.snd)) = some (some 1, some (some 0)) := by decide +kernel
  obtain ⟨p, hexec, hp⟩ := Option.map_eq_some_iff.1 hends
  obtain ⟨q, hget, hq⟩ := Option.map_eq_some_iff.1 (congrArg Prod.snd hp)
  have hlast := (hfresh p.1 p.2 (run_of_exec hexec) 1 q.1 0 (by rw [hget, ← hq])).1
  rw [show p.2.lastPut 1 = some 1 from congrArg Prod.fst hp] at hlast
  cases hlast

end WorkflowModel.Util.CacheUse
