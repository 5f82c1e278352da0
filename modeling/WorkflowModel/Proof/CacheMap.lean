import WorkflowModel.Proof.CacheHandles

/-!
# The map of a cache

The map has exactly the cached handles, each under its own key. `del`, `prune` and `put` change the map and the
handles one after the other, and the two agree again at the end of each call.
-/

namespace WorkflowModel.Util.LRUCache

variable {K V : Type*} [DecidableEq K] {c c' : LRUCache K V} {refs : Nat → Nat} {made : Nat → Option (K × V)}
  {e : Nat} {key : K} {value : V}

structure Agreed (c : LRUCache K V) (refs : Nat → Nat) (made : Nat → Option (K × V)) : Prop where
  accounted : Accounted c refs made
  mapped : ∀ key e, c.cacheMap.lookup key = some e ↔ c.Caches e key

theorem agreed_empty : Agreed (empty : LRUCache K V) (fun _ => 0) (fun _ => none) := by
  refine ⟨accounted_empty, ?_⟩
  intro key e
  simp [empty, Caches]

theorem Caches.key_unique {key' : K} (hfirst : c.Caches e key) (hsecond : c.Caches e key') : key = key' := by
  obtain ⟨h, hh, -, rfl⟩ := hfirst
  obtain ⟨h', hh', -, rfl⟩ := hsecond
  rw [hh] at hh'
  cases hh'
  rfl

/-- `erase_node` after the key of the node was erased. -/
theorem Agreed.eraseKey (hc : Agreed c refs made) (hin : c.cacheMap.lookup key = some e) :
    ∃ c', eraseNode { c with cacheMap := c.cacheMap.erase key } e = some c' ∧ Agreed c' refs made
      ∧ c'.maxSize = c.maxSize ∧ c'.count = c.count
      ∧ (∀ i k, c'.Caches i k ↔ i ≠ e ∧ c.Caches i k)
      ∧ c'.notUse = c.notUse.erase e ∧ c'.inUse = c.inUse.erase e := by
  have hcached := (hc.mapped key e).1 hin
  obtain ⟨c', hrun, hc', hsame, hcaches, hnotUse, hinUse⟩ :=
    eraseNode_spec (hc.accounted.setMap (c.cacheMap.erase key)) hcached
  refine ⟨c', hrun, ⟨hc', ?_⟩, hsame.maxSize, hsame.count, hcaches, hnotUse, hinUse⟩
  intro k i
  rw [hcaches, hsame.cacheMap]
  have hold : Caches { c with cacheMap := c.cacheMap.erase key } i k ↔ c.Caches i k := Iff.rfl
  rw [hold]
  by_cases hk : k = key
  · subst hk
    rw [AList.lookup_erase]
    constructor
    · intro hnone
      cases hnone
    · rintro ⟨hne, hi⟩
      have hsame := (hc.mapped k i).2 hi
      rw [hin] at hsame
      cases hsame
      exact absurd rfl hne
  · rw [AList.lookup_erase_ne hk, hc.mapped]
    constructor
    · intro hi
      refine ⟨?_, hi⟩
      intro hie
      subst hie
      exact hk (hi.key_unique hcached)
    · exact And.right

theorem Agreed.del (hc : Agreed c refs made) (key : K) :
    ∃ c', c.del key = some c' ∧ Agreed c' refs made ∧ c'.count = c.count
      ∧ ∀ i k, c'.Caches i k → c.Caches i k := by
  rcases hin : c.cacheMap.lookup key with _ | e
  · refine ⟨c, by rw [LRUCache.del, hin], hc, rfl, ?_⟩
    intro i k hi
    exact hi
  · obtain ⟨c', hrun, hc', -, hcount, hcaches, -, -⟩ := hc.eraseKey hin
    refine ⟨c', by rw [LRUCache.del, hin]; exact hrun, hc', hcount, ?_⟩
    intro i k hi
    exact ((hcaches i k).1 hi).2

theorem Agreed.get (hc : Agreed c refs made) (key : K) :
    ∃ c' o, c.get key = some (c', o) ∧ o = c.cacheMap.lookup key
      ∧ Agreed c' (fun i => refs i + if o = some i then 1 else 0) made ∧ c'.count = c.count
      ∧ ∀ i k, c'.Caches i k ↔ c.Caches i k := by
  rcases hin : c.cacheMap.lookup key with _ | e
  · refine ⟨c, none, by rw [LRUCache.get, hin], rfl, by simpa using hc, rfl, ?_⟩
    intro i k
    exact Iff.rfl
  · obtain ⟨h, hh, -⟩ := (hc.mapped key e).1 hin
    obtain ⟨c', hrun, hc', hsame, hcaches⟩ := addRef_spec hc.accounted hh
    have hrefs : (fun i => refs i + if some e = some i then 1 else 0)
        = Function.update refs e (refs e + 1) := by
      funext i
      by_cases hie : i = e
      · subst hie
        simp
      · have hne : e ≠ i := fun hei => hie hei.symm
        simp [hie, hne]
    refine ⟨c', some e, ?_, rfl, ?_, hsame.count, hcaches⟩
    · simp only [LRUCache.get, hin, hrun, Option.bind_eq_bind, Option.bind_some]
    · rw [hrefs]
      refine ⟨hc', ?_⟩
      intro k i
      rw [hsame.cacheMap, hcaches, hc.mapped]

theorem Agreed.release (hc : Agreed c refs made) (hpos : 0 < refs e) :
    ∃ c', c.release (some e) = some c' ∧ Agreed c' (Function.update refs e (refs e - 1)) made
      ∧ c'.count = c.count ∧ ∀ i k, c'.Caches i k ↔ c.Caches i k := by
  obtain ⟨c', hrun, hc', hsame, hcaches, -⟩ := unref_spec hc.accounted hpos
  refine ⟨c', hrun, ⟨hc', ?_⟩, hsame.count, hcaches⟩
  intro k i
  rw [hsame.cacheMap, hcaches, hc.mapped]

/-- The loop takes the `n` oldest handles that are out of use. It stops when it is told to, or when no other
handle is out of use; before its last step it was not told to stop. -/
theorem Agreed.evict (goOn : LRUCache K V → Bool) (fuel : Nat) (hc : Agreed c refs made)
    (hfuel : c.notUse.length ≤ fuel) :
    ∃ c' n, c.evict goOn fuel = some c' ∧ Agreed c' refs made ∧ c'.maxSize = c.maxSize ∧ c'.count = c.count
      ∧ n ≤ c.notUse.length ∧ c'.notUse = c.notUse.drop n ∧ c'.inUse = c.inUse
      ∧ (∀ i k, c'.Caches i k ↔ i ∉ c.notUse.take n ∧ c.Caches i k)
      ∧ (goOn c' = false ∨ c'.notUse = [])
      ∧ (n = 0 ∨ ∃ b : LRUCache K V, goOn b = true ∧ b.maxSize = c.maxSize ∧ b.size = c'.size + 1) := by
  induction fuel generalizing c with
  | zero =>
      have hempty : c.notUse = [] := List.length_eq_zero_iff.1 (by omega)
      refine ⟨c, 0, ?_, hc, rfl, rfl, Nat.zero_le _, rfl, rfl, by simp, Or.inr hempty, Or.inl rfl⟩
      unfold LRUCache.evict
      rw [hempty]
      split <;> rfl
  | succ fuel ih =>
      by_cases hgo : goOn c = true
      · rcases hlist : c.notUse with _ | ⟨e, rest⟩
        · refine ⟨c, 0, ?_, hc, rfl, rfl, Nat.zero_le _, by rw [hlist]; rfl, rfl, by simp,
            Or.inr hlist, Or.inl rfl⟩
          unfold LRUCache.evict
          rw [hlist, if_pos hgo]
        · have hmem : e ∈ c.notUse := by
            rw [hlist]
            exact List.mem_cons_self
          obtain ⟨h, hh, hcached, hone⟩ := (hc.accounted.mem_notUse e).1 hmem
          have hin : c.cacheMap.lookup h.key = some e := (hc.mapped _ _).2 ⟨h, hh, hcached, rfl⟩
          obtain ⟨c₁, hrun, hc₁, hmax, hcount, hcaches, hnotUse, hinUse⟩ := hc.eraseKey hin
          rw [hlist, List.erase_cons_head] at hnotUse
          rw [List.erase_of_not_mem (hc.accounted.notMem_inUse hmem)] at hinUse
          have hfuel' : c₁.notUse.length ≤ fuel := by
            rw [hlist, List.length_cons] at hfuel
            rw [hnotUse]
            omega
          obtain ⟨c', n, hrun', hc', hmax', hcount', hn, hdrop, hinUse', hcaches', hstop, hlast⟩ :=
            ih hc₁ hfuel'
          refine ⟨c', n + 1, ?_, hc', hmax'.trans hmax, hcount'.trans hcount, ?_, ?_,
            hinUse'.trans hinUse, ?_, hstop, ?_⟩
          · unfold LRUCache.evict
            rw [if_pos hgo, hlist]
            simp only [hh, Option.bind_eq_bind, Option.bind_some, if_pos hone]
            rw [hlist] at hrun
            rw [hrun]
            exact hrun'
          · rw [hnotUse] at hn
            simpa using hn
          · rw [hdrop, hnotUse]
            rfl
          · intro i k
            rw [hcaches', hcaches, hnotUse, List.take_succ_cons, List.mem_cons]
            tauto
          · refine Or.inr ?_
            rcases hlast with rfl | ⟨b, hb, hbmax, hbsize⟩
            · refine ⟨c, hgo, rfl, ?_⟩
              have hsize := hc.accounted.size
              have hsize' := hc'.accounted.size
              rw [hlist, List.length_cons] at hsize
              rw [hdrop, hinUse', hinUse, hnotUse, List.drop_zero] at hsize'
              omega
            · exact ⟨b, hb, hbmax.trans hmax, hbsize⟩
      · refine ⟨c, 0, ?_, hc, rfl, rfl, Nat.zero_le _, rfl, rfl, by simp, Or.inl (by simpa using hgo),
          Or.inl rfl⟩
        unfold LRUCache.evict
        rw [if_neg hgo]

theorem Agreed.prune (hc : Agreed c refs made) :
    ∃ c', c.prune = some c' ∧ Agreed c' refs made ∧ c'.count = c.count
      ∧ ∀ i k, c'.Caches i k → c.Caches i k := by
  obtain ⟨c', n, hrun, hc', -, hcount, -, -, -, hcaches, -, -⟩ := hc.evict (fun _ => true) _ le_rfl
  refine ⟨c', hrun, hc', hcount, ?_⟩
  intro i k hi
  exact ((hcaches i k).1 hi).2

/-- The handle that a `put` makes has one reference of its caller, and one of the cache if it is cached. -/
theorem Accounted.create {h : LRUHandle K V} (hc : Accounted c refs made)
    (hhandles : c'.handles = Function.update c.handles c.count (some h)) (hcount : c'.count = c.count + 1)
    (hdeleted : c'.deleted = c.deleted) (hnotUse : c'.notUse = c.notUse)
    (hinUse : c'.inUse = if h.inCache = true then c.inUse ++ [c.count] else c.inUse)
    (hsize : c'.size = if h.inCache = true then c.size + 1 else c.size)
    (href : h.ref = 1 + if h.inCache = true then 1 else 0) :
    Accounted c' (Function.update refs c.count 1) (Function.update made c.count (some (h.key, h.value))) := by
  have hself : c'.handles c.count = some h := by rw [hhandles, Function.update_self]
  have hnone : c.handles c.count = none := hc.fresh _ le_rfl
  have hout : c.count ∉ c.notUse := by
    rw [hc.mem_notUse, hnone]
    simp
  have hout' : c.count ∉ c.inUse := by
    rw [hc.mem_inUse, hnone]
    simp
  have hdeletedLt : ∀ i ∈ c.deleted.map Prod.fst, i < c.count := fun i hi => ((hc.mem_deleted i).1 hi).1
  apply hc.updateAt (e := c.count)
  case hother =>
    intro i hie
    rw [hhandles, hcount, Function.update_of_ne hie, Function.update_of_ne hie, Function.update_of_ne hie]
    exact ⟨rfl, rfl, rfl, by omega⟩
  case hlists =>
    intro i hie
    rw [hnotUse, hinUse, hdeleted]
    refine ⟨Iff.rfl, ?_, Iff.rfl⟩
    split <;> simp [hie]
  case he =>
    constructor
    case fresh =>
      intro hge
      omega
    case counted =>
      intro g hg
      rw [← Option.some.inj (hself.symm.trans hg), Function.update_self]
      exact href
    case needed =>
      intro g hg
      rw [← Option.some.inj (hself.symm.trans hg), href]
      omega
    case gone =>
      intro hgone
      rw [hself] at hgone
      contradiction
    case mem_notUse =>
      rw [hnotUse, hself]
      refine iff_of_false hout ?_
      rintro ⟨g, hg, hcached, hone⟩
      rw [← Option.some.inj hg] at hcached hone
      rw [href, hcached] at hone
      simp at hone
    case mem_inUse =>
      rw [hinUse, hself]
      cases hcached : h.inCache
      · simp [hout', hcached]
      · simp [hcached, href]
    case mem_deleted =>
      rw [hdeleted, hself]
      refine iff_of_false (fun hmem => ?_) (by simp)
      exact absurd (hdeletedLt _ hmem) (Nat.lt_irrefl _)
    case content =>
      intro g hg
      rw [← Option.some.inj (hself.symm.trans hg), Function.update_self]
  case hnodup =>
    rw [hnotUse, hinUse]
    refine ⟨hc.nodup_notUse, ?_⟩
    split
    · exact hc.nodup_inUse.append (List.nodup_singleton _) (by simpa using hout')
    · exact hc.nodup_inUse
  case hsize =>
    have := hc.size
    rw [hsize, hnotUse, hinUse]
    split
    · rw [List.length_append, List.length_singleton]
      omega
    · exact this
  case hdeleted =>
    rw [hdeleted]
    exact hc.nodup_deleted
  case hvalue =>
    intro p hp
    rw [hdeleted] at hp
    have hlt := hdeletedLt p.1 (List.mem_map_of_mem hp)
    rw [Function.update_of_ne (by omega)]
    exact hc.deletedValue p hp

theorem Accounted.not_caches_count (hc : Accounted c refs made) (k : K) : ¬ c.Caches c.count k := by
  rintro ⟨h, hh, -⟩
  rw [hc.fresh _ le_rfl] at hh
  cases hh

theorem Agreed.insert {refs' : Nat → Nat} {made' : Nat → Option (K × V)} (hc : Agreed c refs made)
    (hc' : Accounted c' refs' made') (hmap : c'.cacheMap = c.cacheMap.insert key e)
    (hcaches : ∀ i k, c'.Caches i k ↔ k = key ∧ i = e ∨ k ≠ key ∧ c.Caches i k) : Agreed c' refs' made' := by
  refine ⟨hc', ?_⟩
  intro k i
  rw [hcaches, hmap]
  by_cases hk : k = key
  · subst hk
    rw [AList.lookup_insert]
    simp [eq_comm]
  · rw [AList.lookup_insert_ne hk, hc.mapped]
    simp [hk]

theorem Agreed.putCached (hc : Agreed c refs made) (key : K) (value : V) :
    ∃ c', c.putCached key value = some c'
      ∧ Agreed c' (Function.update refs c.count 1) (Function.update made c.count (some (key, value)))
      ∧ c'.maxSize = c.maxSize ∧ c'.count = c.count + 1
      ∧ ∀ i k, c'.Caches i k ↔ k = key ∧ i = c.count ∨ k ≠ key ∧ c.Caches i k := by
  let c₁ : LRUCache K V := (({ c with size := c.size + 1, count := c.count + 1 } : LRUCache K V).setHandle c.count
    { key := key, value := value, ref := 2, inCache := true }).appendInUse c.count
  have hnew := hc.accounted.not_caches_count
  have hc₁ : Accounted c₁ (Function.update refs c.count 1) (Function.update made c.count (some (key, value))) :=
    Accounted.create (h := { key := key, value := value, ref := 2, inCache := true }) hc.accounted rfl rfl rfl rfl
      rfl rfl rfl
  have hcaches₁ : ∀ i k, c₁.Caches i k ↔ k = key ∧ i = c.count ∨ c.Caches i k := by
    intro i k
    by_cases hie : i = c.count
    · subst hie
      simp only [hnew k, or_false, and_true]
      constructor
      · rintro ⟨h, hh, -, rfl⟩
        have hself : c₁.handles c.count = some { key := key, value := value, ref := 2, inCache := true } :=
          Function.update_self ..
        rw [hself] at hh
        cases hh
        rfl
      · rintro rfl
        exact ⟨_, Function.update_self .., rfl, rfl⟩
    · simp [Caches, c₁, setHandle, appendInUse, hie]
  have hput : c.putCached key value = (c.cacheMap.lookup key).elim
      (some { c₁ with cacheMap := c.cacheMap.insert key c.count })
      fun old => (c₁.eraseNode old).bind fun c₂ => some { c₂ with cacheMap := c₂.cacheMap.insert key c.count } := by
    simp only [LRUCache.putCached, setHandle, appendInUse]
    cases c.cacheMap.lookup key <;> rfl
  rcases hin : c.cacheMap.lookup key with _ | old
  · have hrun : c.putCached key value = some { c₁ with cacheMap := c.cacheMap.insert key c.count } := by
      rw [hput, hin, Option.elim_none]
    have hcaches : ∀ i k, c₁.Caches i k ↔ k = key ∧ i = c.count ∨ k ≠ key ∧ c.Caches i k := by
      intro i k
      rw [hcaches₁]
      have hother : c.Caches i k → k ≠ key := by
        rintro hi rfl
        rw [(hc.mapped k i).2 hi] at hin
        cases hin
      tauto
    exact ⟨_, hrun, hc.insert (hc₁.setMap _) rfl hcaches, rfl, rfl, hcaches⟩
  · have hold := (hc.mapped key old).1 hin
    obtain ⟨c₂, herase, hc₂, hsame, hcaches₂, -, -⟩ := eraseNode_spec hc₁ ((hcaches₁ old key).2 (Or.inr hold))
    have hrun : c.putCached key value = some { c₂ with cacheMap := c₂.cacheMap.insert key c.count } := by
      rw [hput, hin]
      simp only [herase, Option.elim_some, Option.bind_some]
    have hcaches : ∀ i k, c₂.Caches i k ↔ k = key ∧ i = c.count ∨ k ≠ key ∧ c.Caches i k := by
      intro i k
      rw [hcaches₂, hcaches₁]
      constructor
      · rintro ⟨hne, hnew | hi⟩
        · exact Or.inl hnew
        · refine Or.inr ⟨?_, hi⟩
          rintro rfl
          have hsame := (hc.mapped k i).2 hi
          rw [hin] at hsame
          cases hsame
          exact hne rfl
      · rintro (⟨rfl, rfl⟩ | ⟨hk, hi⟩)
        · refine ⟨?_, Or.inl ⟨rfl, rfl⟩⟩
          rintro rfl
          exact hnew k hold
        · refine ⟨?_, Or.inr hi⟩
          rintro rfl
          exact hk (hi.key_unique hold)
    refine ⟨_, hrun, hc.insert (hc₂.setMap _) ?_ hcaches, hsame.maxSize, hsame.count, hcaches⟩
    simp only [hsame.cacheMap]
    rfl

theorem Agreed.putAside (hc : Agreed c refs made) (key : K) (value : V) :
    Agreed (c.putAside key value) (Function.update refs c.count 1)
        (Function.update made c.count (some (key, value)))
      ∧ ∀ i k, (c.putAside key value).Caches i k ↔ c.Caches i k := by
  have hcaches : ∀ i k, (c.putAside key value).Caches i k ↔ c.Caches i k := by
    intro i k
    by_cases hie : i = c.count
    · subst hie
      have := hc.accounted.not_caches_count k
      simp only [this, iff_false]
      simp [Caches, LRUCache.putAside, setHandle]
    · simp [Caches, LRUCache.putAside, setHandle, hie]
  refine ⟨⟨?_, ?_⟩, hcaches⟩
  · exact Accounted.create (h := { key := key, value := value, ref := 1, inCache := false }) hc.accounted rfl rfl rfl
      rfl rfl rfl rfl
  · intro k i
    rw [hcaches]
    exact hc.mapped k i

/-- The handles that a `put` takes out of the cache when it does not cache its own. -/
def overflow (c : LRUCache K V) : List Nat := c.notUse.take (c.size - c.maxSize)

/-- Without a bound nothing is evicted, and else the loop stops at the bound or at the end of the list. -/
theorem Agreed.evictOver (hc : Agreed c refs made) :
    ∃ c', c.evictOver = some c' ∧ Agreed c' refs made ∧ c'.count = c.count
      ∧ (∀ i k, c'.Caches i k → c.Caches i k)
      ∧ (0 < c.maxSize → c'.size + c.overflow.length = c.size
        ∧ ∀ i k, c'.Caches i k ↔ i ∉ c.overflow ∧ c.Caches i k) := by
  by_cases hmax : c.maxSize > 0
  · obtain ⟨c', n, hrun, hc', hmax', hcount, hn, hdrop, hinUse, hcaches, hstop, hlast⟩ :=
      hc.evict (fun c => c.size > c.maxSize) _ le_rfl
    have hsize := hc.accounted.size
    have hsize' := hc'.accounted.size
    rw [hdrop, List.length_drop, hinUse] at hsize'
    have hover : n ≤ c.size - c.maxSize := by
      rcases hlast with rfl | ⟨b, hgo, hbmax, hbsize⟩
      · exact Nat.zero_le _
      · have : b.size > b.maxSize := by simpa using hgo
        omega
    have htake : c.notUse.take n = c.overflow := by
      rcases hstop with hstop | hempty
      · have : ¬ c'.size > c'.maxSize := by simpa using hstop
        rw [overflow, show c.size - c.maxSize = n by omega]
      · rw [hempty] at hdrop
        have hlen : c.notUse.length ≤ n := by
          rw [← List.drop_eq_nil_iff]
          exact hdrop.symm
        rw [overflow, List.take_of_length_le hlen, List.take_of_length_le (by omega)]
    refine ⟨c', by rw [LRUCache.evictOver, if_pos hmax]; exact hrun, hc', hcount, ?_, ?_⟩
    · intro i k hi
      exact ((hcaches i k).1 hi).2
    · intro _
      refine ⟨?_, fun i k => by rw [hcaches, htake]⟩
      rw [← htake, List.length_take_of_le hn]
      omega
  · refine ⟨c, by rw [LRUCache.evictOver, if_neg hmax], hc, rfl, ?_, ?_⟩
    · intro i k hi
      exact hi
    · intro hpos
      exact absurd hpos hmax

/-- A `put` caches its handle in place of the old one, or it evicts the oldest handles until the bound is kept. -/
theorem Agreed.put (hc : Agreed c refs made) (key : K) (value : V) :
    ∃ c', c.put key value = some (c', c.count)
      ∧ Agreed c' (Function.update refs c.count 1) (Function.update made c.count (some (key, value)))
      ∧ c'.count = c.count + 1
      ∧ (c.maxSize = 0 ∨ c.size < c.maxSize →
          ∀ i k, c'.Caches i k → k = key ∧ i = c.count ∨ k ≠ key ∧ c.Caches i k)
      ∧ (¬ (c.maxSize = 0 ∨ c.size < c.maxSize) → c'.size + c.overflow.length = c.size
          ∧ ∀ i k, c'.Caches i k ↔ i ∉ c.overflow ∧ c.Caches i k) := by
  by_cases hroom : c.maxSize = 0 ∨ c.size < c.maxSize
  · obtain ⟨b, hput, hb, -, hcount, hcaches⟩ := hc.putCached key value
    obtain ⟨c', hrun, hc', hcount', hsub, -⟩ := hb.evictOver
    refine ⟨c', ?_, hc', by omega, ?_, ?_⟩
    · simp only [LRUCache.put, if_pos hroom, hput, hrun, Option.bind_eq_bind, Option.bind_some]
    · intro _ i k hi
      exact (hcaches i k).1 (hsub i k hi)
    · intro hfull
      exact absurd hroom hfull
  · obtain ⟨hb, hcaches⟩ := hc.putAside key value
    obtain ⟨c', hrun, hc', hcount', -, hexact⟩ := hb.evictOver
    have hpos : 0 < c.maxSize := by
      push Not at hroom
      omega
    refine ⟨c', ?_, hc', hcount', ?_, ?_⟩
    · simp only [LRUCache.put, if_neg hroom, hrun, Option.bind_eq_bind, Option.bind_some]
    · intro hroom'
      exact absurd hroom' hroom
    · intro _
      obtain ⟨hsize, hexact⟩ := hexact hpos
      refine ⟨hsize, fun i k => ?_⟩
      rw [hexact, hcaches]
      exact Iff.rfl

end WorkflowModel.Util.LRUCache
