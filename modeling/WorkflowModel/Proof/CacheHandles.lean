import WorkflowModel.Util.LRUCache

/-!
# The handles of a cache

The reference count of a handle is written down a second time by where the handle stands: in neither list, in
`not_use_` or in `in_use_`. A call changes both, through `ref`, `unref` and `erase_node`. The map is left out of
the account here; it only sees which keys are cached under which handles.
-/

namespace WorkflowModel.Util.LRUCache

variable {K V : Type*} {c c' : LRUCache K V} {refs : Nat → Nat} {made : Nat → Option (K × V)} {e : Nat}
  {h : LRUHandle K V}

/-- The handle `e` is cached under `key`. -/
def Caches (c : LRUCache K V) (e : Nat) (key : K) : Prop :=
  ∃ h, c.handles e = some h ∧ h.inCache = true ∧ h.key = key

/-- What holds of the handles when callers refer `refs e` times to the handle `e`, which was made of `made e`. -/
structure Accounted (c : LRUCache K V) (refs : Nat → Nat) (made : Nat → Option (K × V)) : Prop where
  fresh : ∀ e, c.count ≤ e → c.handles e = none
  counted : ∀ e h, c.handles e = some h → h.ref = refs e + if h.inCache = true then 1 else 0
  needed : ∀ e h, c.handles e = some h → 0 < h.ref
  gone : ∀ e, c.handles e = none → refs e = 0
  mem_notUse : ∀ e, e ∈ c.notUse ↔ ∃ h, c.handles e = some h ∧ h.inCache = true ∧ h.ref = 1
  mem_inUse : ∀ e, e ∈ c.inUse ↔ ∃ h, c.handles e = some h ∧ h.inCache = true ∧ 1 < h.ref
  nodup_notUse : c.notUse.Nodup
  nodup_inUse : c.inUse.Nodup
  size : c.size = c.notUse.length + c.inUse.length
  nodup_deleted : (c.deleted.map Prod.fst).Nodup
  mem_deleted : ∀ e, e ∈ c.deleted.map Prod.fst ↔ e < c.count ∧ c.handles e = none
  deletedValue : ∀ p ∈ c.deleted, ∃ key, made p.1 = some (key, p.2)
  content : ∀ e h, c.handles e = some h → made e = some (h.key, h.value)

/-- The call did not touch the map, the bound or the number of handles. -/
structure SameMap (c c' : LRUCache K V) : Prop where
  cacheMap : c'.cacheMap = c.cacheMap
  maxSize : c'.maxSize = c.maxSize
  count : c'.count = c.count

theorem Accounted.lt_count (hc : Accounted c refs made) (hh : c.handles e = some h) : e < c.count := by
  by_contra hge
  have := hc.fresh e (by omega)
  rw [this] at hh
  cases hh

theorem Accounted.notMem_inUse (hc : Accounted c refs made) (hmem : e ∈ c.notUse) : e ∉ c.inUse := by
  intro hin
  obtain ⟨h, hh, -, hone⟩ := (hc.mem_notUse e).1 hmem
  obtain ⟨h', hh', -, hmore⟩ := (hc.mem_inUse e).1 hin
  rw [hh] at hh'
  cases hh'
  omega

theorem accounted_empty : Accounted (empty : LRUCache K V) (fun _ => 0) (fun _ => none) := by
  constructor <;> simp [empty]

theorem Accounted.setMap (hc : Accounted c refs made) (m : AList fun _ : K => Nat) :
    Accounted { c with cacheMap := m } refs made := by
  obtain ⟨hfresh, hcounted, hneeded, hgone, hnot, hin, hnodup, hnodup', hsize, hdel, hmem, hval, hcont⟩ := hc
  exact ⟨hfresh, hcounted, hneeded, hgone, hnot, hin, hnodup, hnodup', hsize, hdel, hmem, hval, hcont⟩

theorem caches_congr {c c' : LRUCache K V} {h h' : LRUHandle K V} (hh : c.handles e = some h)
    (hhandles : c'.handles = Function.update c.handles e (some h')) (hkey : h'.key = h.key)
    (hcached : h'.inCache = h.inCache) (i : Nat) (key : K) : c'.Caches i key ↔ c.Caches i key := by
  by_cases hie : i = e
  · subst hie
    simp [Caches, hhandles, hh, hkey, hcached]
  · simp [Caches, hhandles, hie]

/-- The part of the account that is about one handle. -/
structure AccountedAt (c : LRUCache K V) (refs : Nat → Nat) (made : Nat → Option (K × V)) (e : Nat) : Prop where
  fresh : c.count ≤ e → c.handles e = none
  counted : ∀ h, c.handles e = some h → h.ref = refs e + if h.inCache = true then 1 else 0
  needed : ∀ h, c.handles e = some h → 0 < h.ref
  gone : c.handles e = none → refs e = 0
  mem_notUse : e ∈ c.notUse ↔ ∃ h, c.handles e = some h ∧ h.inCache = true ∧ h.ref = 1
  mem_inUse : e ∈ c.inUse ↔ ∃ h, c.handles e = some h ∧ h.inCache = true ∧ 1 < h.ref
  mem_deleted : e ∈ c.deleted.map Prod.fst ↔ e < c.count ∧ c.handles e = none
  content : ∀ h, c.handles e = some h → made e = some (h.key, h.value)

theorem Accounted.at (hc : Accounted c refs made) (e : Nat) : AccountedAt c refs made e :=
  ⟨hc.fresh e, hc.counted e, hc.needed e, hc.gone e, hc.mem_notUse e, hc.mem_inUse e, hc.mem_deleted e, hc.content e⟩

/-- A call that concerns the handle `e`: the account of the others is as it was. -/
theorem Accounted.updateAt {refs' : Nat → Nat} {made' : Nat → Option (K × V)} (hc : Accounted c refs made)
    (hother : ∀ i, i ≠ e → c'.handles i = c.handles i ∧ refs' i = refs i ∧ made' i = made i
      ∧ (i < c'.count ↔ i < c.count))
    (hlists : ∀ i, i ≠ e → (i ∈ c'.notUse ↔ i ∈ c.notUse) ∧ (i ∈ c'.inUse ↔ i ∈ c.inUse)
      ∧ (i ∈ c'.deleted.map Prod.fst ↔ i ∈ c.deleted.map Prod.fst))
    (he : AccountedAt c' refs' made' e) (hnodup : c'.notUse.Nodup ∧ c'.inUse.Nodup)
    (hsize : c'.size = c'.notUse.length + c'.inUse.length) (hdeleted : (c'.deleted.map Prod.fst).Nodup)
    (hvalue : ∀ p ∈ c'.deleted, ∃ key, made' p.1 = some (key, p.2)) : Accounted c' refs' made' := by
  have hall : ∀ i, AccountedAt c' refs' made' i := by
    intro i
    by_cases hie : i = e
    · rw [hie]
      exact he
    · obtain ⟨hhandle, hrefs, hmade, hcount⟩ := hother i hie
      obtain ⟨hnotUse, hinUse, hgone⟩ := hlists i hie
      have hi := hc.at i
      constructor
      · rw [hhandle, ← not_lt, hcount, not_lt]
        exact hi.fresh
      · rw [hhandle, hrefs]
        exact hi.counted
      · rw [hhandle]
        exact hi.needed
      · rw [hhandle, hrefs]
        exact hi.gone
      · rw [hhandle, hnotUse]
        exact hi.mem_notUse
      · rw [hhandle, hinUse]
        exact hi.mem_inUse
      · rw [hhandle, hgone, hcount]
        exact hi.mem_deleted
      · rw [hhandle, hmade]
        exact hi.content
  exact ⟨fun i => (hall i).fresh, fun i => (hall i).counted, fun i => (hall i).needed, fun i => (hall i).gone,
    fun i => (hall i).mem_notUse, fun i => (hall i).mem_inUse, hnodup.1, hnodup.2, hsize, hdeleted,
    fun i => (hall i).mem_deleted, hvalue, fun i => (hall i).content⟩

/-- A call changed the handle `e`, the references to it and its place in the lists, and nothing else. -/
theorem Accounted.replace {refs' : Nat → Nat} {h' : LRUHandle K V} (hc : Accounted c refs made)
    (hh : c.handles e = some h) (hhandles : c'.handles = Function.update c.handles e (some h'))
    (hkey : h'.key = h.key) (hvalue : h'.value = h.value) (hcount : c'.count = c.count)
    (hdeleted : c'.deleted = c.deleted) (hrefs : ∀ i, i ≠ e → refs' i = refs i)
    (hcounted : h'.ref = refs' e + if h'.inCache = true then 1 else 0) (hpos : 0 < h'.ref)
    (hnotUse : ∀ i, i ∈ c'.notUse ↔ i ≠ e ∧ i ∈ c.notUse ∨ i = e ∧ h'.inCache = true ∧ h'.ref = 1)
    (hinUse : ∀ i, i ∈ c'.inUse ↔ i ≠ e ∧ i ∈ c.inUse ∨ i = e ∧ h'.inCache = true ∧ 1 < h'.ref)
    (hnodup : c'.notUse.Nodup ∧ c'.inUse.Nodup) (hsize : c'.size = c'.notUse.length + c'.inUse.length) :
    Accounted c' refs' made := by
  have hself : c'.handles e = some h' := by rw [hhandles, Function.update_self]
  have hlt := hc.lt_count hh
  apply hc.updateAt (e := e)
  case hother =>
    intro i hie
    rw [hhandles, Function.update_of_ne hie, hcount]
    exact ⟨rfl, hrefs i hie, rfl, Iff.rfl⟩
  case hlists =>
    intro i hie
    rw [hnotUse, hinUse, hdeleted]
    simp [hie]
  case he =>
    constructor
    · intro hge
      omega
    · intro g hg
      rwa [← Option.some.inj (hself.symm.trans hg)]
    · intro g hg
      rwa [← Option.some.inj (hself.symm.trans hg)]
    · intro hnone
      rw [hself] at hnone
      contradiction
    · rw [hnotUse]
      simp [hself]
    · rw [hinUse]
      simp [hself]
    · rw [hdeleted, hcount, hc.mem_deleted]
      simp [hself, hh]
    · intro g hg
      rw [← Option.some.inj (hself.symm.trans hg), hkey, hvalue]
      exact hc.content e h hh
  case hnodup => exact hnodup
  case hsize => exact hsize
  case hdeleted =>
    rw [hdeleted]
    exact hc.nodup_deleted
  case hvalue =>
    rw [hdeleted]
    exact hc.deletedValue

theorem Accounted.mem_notUse_of (hc : Accounted c refs made) (hh : c.handles e = some h)
    (hcached : h.inCache = true) (hone : h.ref = 1) : e ∈ c.notUse :=
  (hc.mem_notUse e).2 ⟨h, hh, hcached, hone⟩

theorem Accounted.mem_inUse_of (hc : Accounted c refs made) (hh : c.handles e = some h)
    (hcached : h.inCache = true) (hmore : 1 < h.ref) : e ∈ c.inUse :=
  (hc.mem_inUse e).2 ⟨h, hh, hcached, hmore⟩

/-- The reference count changes and the handle stays in the list that it is in. -/
theorem Accounted.setRef {n : Int} {count : Nat} (hc : Accounted c refs made) (hh : c.handles e = some h)
    (hcount : n = count + if h.inCache = true then 1 else 0) (hpos : 0 < n)
    (hstays : h.inCache = true → (n = 1 ↔ h.ref = 1)) :
    Accounted (c.setHandle e { h with ref := n }) (Function.update refs e count) made := by
  have hneeded := hc.needed e h hh
  refine hc.replace hh rfl rfl rfl rfl rfl ?_ ?_ hpos ?_ ?_ ?_ hc.size
  · intro i hne
    exact Function.update_of_ne hne _ _
  · rw [Function.update_self]
    exact hcount
  · intro i
    have := hc.mem_notUse i
    simp only [setHandle]
    grind
  · intro i
    have := hc.mem_inUse i
    simp only [setHandle]
    grind
  · exact ⟨hc.nodup_notUse, hc.nodup_inUse⟩

/-- `ref`. -/
theorem addRef_spec (hc : Accounted c refs made) (hh : c.handles e = some h) :
    ∃ c', c.addRef e = some c' ∧ Accounted c' (Function.update refs e (refs e + 1)) made ∧ SameMap c c'
      ∧ ∀ i key, c'.Caches i key ↔ c.Caches i key := by
  have hcounted := hc.counted e h hh
  have hneeded := hc.needed e h hh
  by_cases hunused : h.inCache = true ∧ h.ref = 1
  · have hin : e ∈ c.notUse := hc.mem_notUse_of hh hunused.1 hunused.2
    have hout : e ∉ c.inUse := hc.notMem_inUse hin
    have hrun : c.addRef e = some (({ c with notUse := c.notUse.erase e }.appendInUse e).setHandle e
        { h with ref := h.ref + 1 }) := by
      simp only [addRef, hh, listRemove, Option.bind_eq_bind, Option.bind_some, if_pos hunused, if_pos hin]
    refine ⟨_, hrun, ?_, ⟨rfl, rfl, rfl⟩, caches_congr hh rfl rfl rfl⟩
    refine hc.replace hh rfl rfl rfl rfl rfl ?_ ?_ ?_ ?_ ?_ ?_ ?_
    · intro i hne
      exact Function.update_of_ne hne _ _
    · simp only [Function.update_self, hcounted]
      omega
    · simp only
      omega
    · intro i
      simp only [setHandle, appendInUse, hc.nodup_notUse.mem_erase_iff]
      grind
    · intro i
      simp only [setHandle, appendInUse, List.mem_append, List.mem_singleton]
      grind
    · refine ⟨hc.nodup_notUse.erase e, ?_⟩
      exact hc.nodup_inUse.append (List.nodup_singleton e) (by simpa using hout)
    · have hlength := List.length_erase_of_mem hin
      have hpos := List.length_pos_of_mem hin
      have hsize := hc.size
      simp only [setHandle, appendInUse, List.length_append, List.length_singleton]
      omega
  · have hrun : c.addRef e = some (c.setHandle e { h with ref := h.ref + 1 }) := by
      simp only [addRef, hh, Option.bind_eq_bind, Option.bind_some, if_neg hunused]
    refine ⟨_, hrun, ?_, ⟨rfl, rfl, rfl⟩, caches_congr hh rfl rfl rfl⟩
    apply hc.setRef hh
    · omega
    · omega
    · intro hcached
      have hne : h.ref ≠ 1 := fun hone => hunused ⟨hcached, hone⟩
      omega

/-- The last reference to a handle that is not cached. -/
theorem Accounted.delete (hc : Accounted c refs made) (hh : c.handles e = some h) (hcached : h.inCache = false)
    (hone : refs e = 1) :
    Accounted { c with handles := Function.update c.handles e none, deleted := c.deleted ++ [(e, h.value)] }
      (Function.update refs e 0) made := by
  have hlt := hc.lt_count hh
  have hunlinked : ¬ ∃ g, c.handles e = some g ∧ g.inCache = true := by
    rintro ⟨g, hg, hgc⟩
    rw [← Option.some.inj (hh.symm.trans hg), hcached] at hgc
    contradiction
  apply hc.updateAt (e := e)
  case hother =>
    intro i hie
    simp [hie]
  case hlists =>
    intro i hie
    simp [hie]
  case he =>
    constructor
    case mem_notUse =>
      rw [hc.mem_notUse]
      simp only [Function.update_self]
      constructor
      · rintro ⟨g, hg, hgc, -⟩
        exact absurd ⟨g, hg, hgc⟩ hunlinked
      · rintro ⟨g, hg, -⟩
        contradiction
    case mem_inUse =>
      rw [hc.mem_inUse]
      simp only [Function.update_self]
      constructor
      · rintro ⟨g, hg, hgc, -⟩
        exact absurd ⟨g, hg, hgc⟩ hunlinked
      · rintro ⟨g, hg, -⟩
        contradiction
    all_goals simp [hlt]
  case hnodup => exact ⟨hc.nodup_notUse, hc.nodup_inUse⟩
  case hsize => exact hc.size
  case hdeleted =>
    rw [List.map_append, List.map_singleton]
    apply hc.nodup_deleted.append (List.nodup_singleton e)
    intro i hi hie
    rw [List.mem_singleton] at hie
    rw [hie, hc.mem_deleted, hh] at hi
    exact absurd hi.2 (by simp)
  case hvalue =>
    intro p hp
    rcases List.mem_append.1 hp with hold | hnew
    · exact hc.deletedValue p hold
    · rw [List.mem_singleton] at hnew
      subst hnew
      exact ⟨h.key, hc.content e h hh⟩

/-- `unref`. The handle is deleted, put out of use or left where it is. -/
theorem unref_spec (hc : Accounted c refs made) (hpos : 0 < refs e) :
    ∃ c', c.unref e = some c' ∧ Accounted c' (Function.update refs e (refs e - 1)) made ∧ SameMap c c'
      ∧ (∀ i key, c'.Caches i key ↔ c.Caches i key)
      ∧ ((∀ key, ¬ c.Caches e key) → c'.notUse = c.notUse ∧ c'.inUse = c.inUse) := by
  obtain ⟨h, hh⟩ : ∃ h, c.handles e = some h := by
    rcases hnone : c.handles e with _ | h
    · have := hc.gone e hnone
      omega
    · exact ⟨h, rfl⟩
  have hcounted := hc.counted e h hh
  have hneeded := hc.needed e h hh
  by_cases hlast : h.ref - 1 = 0
  · have hcached : h.inCache = false := by
      cases hin : h.inCache
      · rfl
      · rw [hin, if_pos rfl] at hcounted
        omega
    have hone : refs e = 1 := by
      rw [hcached] at hcounted
      simp only [Bool.false_eq_true, if_false] at hcounted
      omega
    have hrun : c.unref e = some { c with
        handles := Function.update c.handles e none, deleted := c.deleted ++ [(e, h.value)] } := by
      simp only [unref, hh, Option.bind_eq_bind, Option.bind_some, if_pos hneeded, hlast, if_pos, hcached,
        Bool.false_eq_true, if_false, setHandle, Function.update_idem]
    refine ⟨_, hrun, ?_, ⟨rfl, rfl, rfl⟩, ?_, ?_⟩
    · rw [hone]
      exact hc.delete hh hcached hone
    · intro i key
      by_cases hie : i = e
      · subst hie
        simp [Caches, hh, hcached]
      · simp [Caches, hie]
    · intro _
      exact ⟨rfl, rfl⟩
  · by_cases hunused : h.inCache = true ∧ h.ref - 1 = 1
    · have hin : e ∈ c.inUse := hc.mem_inUse_of hh hunused.1 (by omega)
      have hout : e ∉ c.notUse := by
        intro hin'
        exact hc.notMem_inUse hin' hin
      have hrun : c.unref e = some ({ c.setHandle e { h with ref := h.ref - 1 } with
          inUse := c.inUse.erase e }.appendNotUse e) := by
        simp only [unref, hh, listRemove, Option.bind_eq_bind, Option.bind_some, if_pos hneeded,
          if_neg hlast, if_pos hunused]
        rw [if_neg (show e ∉ (c.setHandle e { h with ref := h.ref - 1 }).notUse from hout),
          if_pos (show e ∈ (c.setHandle e { h with ref := h.ref - 1 }).inUse from hin)]
        rfl
      refine ⟨_, hrun, ?_, ⟨rfl, rfl, rfl⟩, caches_congr hh rfl rfl rfl, ?_⟩
      · refine hc.replace hh rfl rfl rfl rfl rfl ?_ ?_ ?_ ?_ ?_ ?_ ?_
        · intro i hne
          exact Function.update_of_ne hne _ _
        · simp only [Function.update_self, hcounted]
          omega
        · simp only
          omega
        · intro i
          simp only [setHandle, appendNotUse, List.mem_append, List.mem_singleton]
          grind
        · intro i
          simp only [setHandle, appendNotUse, hc.nodup_inUse.mem_erase_iff]
          grind
        · refine ⟨?_, hc.nodup_inUse.erase e⟩
          exact hc.nodup_notUse.append (List.nodup_singleton e) (by simpa using hout)
        · have hlength := List.length_erase_of_mem hin
          have hpos := List.length_pos_of_mem hin
          have hsize := hc.size
          simp only [setHandle, appendNotUse, List.length_append, List.length_singleton]
          omega
      · intro hnone
        exact absurd ⟨h, hh, hunused.1, rfl⟩ (hnone h.key)
    · have hrun : c.unref e = some (c.setHandle e { h with ref := h.ref - 1 }) := by
        simp only [unref, hh, Option.bind_eq_bind, Option.bind_some, if_pos hneeded, if_neg hlast,
          if_neg hunused]
      refine ⟨_, hrun, ?_, ⟨rfl, rfl, rfl⟩, caches_congr hh rfl rfl rfl, fun _ => ⟨rfl, rfl⟩⟩
      apply hc.setRef hh
      · omega
      · omega
      · intro hcached
        have hne : h.ref - 1 ≠ 1 := fun hone => hunused ⟨hcached, hone⟩
        rw [if_pos hcached] at hcounted
        omega

theorem Caches.mem (hc : Accounted c refs made) {key : K} (hin : c.Caches e key) :
    e ∈ c.notUse ∨ e ∈ c.inUse := by
  obtain ⟨h, hh, hcached, -⟩ := hin
  have hneeded := hc.needed e h hh
  by_cases hone : h.ref = 1
  · exact Or.inl (hc.mem_notUse_of hh hcached hone)
  · exact Or.inr (hc.mem_inUse_of hh hcached (by omega))

theorem listRemove_spec (hc : Accounted c refs made) {key : K} (hin : c.Caches e key) :
    c.listRemove e = some { c with notUse := c.notUse.erase e, inUse := c.inUse.erase e } := by
  rcases hin.mem hc with hnotUse | hinUse
  · rw [listRemove, if_pos hnotUse, List.erase_of_not_mem (hc.notMem_inUse hnotUse)]
  · have hout : e ∉ c.notUse := by
      intro hnotUse
      exact hc.notMem_inUse hnotUse hinUse
    rw [listRemove, if_neg hout, if_pos hinUse, List.erase_of_not_mem hout]

/-- `erase_node`. The reference of the cache is counted as one of a caller until it is given up. -/
theorem eraseNode_spec (hc : Accounted c refs made) {key : K} (hin : c.Caches e key) :
    ∃ c', c.eraseNode e = some c' ∧ Accounted c' refs made ∧ SameMap c c'
      ∧ (∀ i key, c'.Caches i key ↔ i ≠ e ∧ c.Caches i key)
      ∧ c'.notUse = c.notUse.erase e ∧ c'.inUse = c.inUse.erase e := by
  have hremove := listRemove_spec hc hin
  obtain ⟨h, hh, hcached, hkey⟩ := id hin
  have hcounted := hc.counted e h hh
  have hneeded := hc.needed e h hh
  rw [hcached, if_pos rfl] at hcounted
  let c₁ : LRUCache K V := { c with
    notUse := c.notUse.erase e, inUse := c.inUse.erase e, size := c.size - 1,
    handles := Function.update c.handles e (some { h with inCache := false }) }
  have haside : Accounted c₁ (Function.update refs e (refs e + 1)) made := by
    refine hc.replace hh rfl rfl rfl rfl rfl ?_ ?_ ?_ ?_ ?_ ?_ ?_
    · intro i hne
      exact Function.update_of_ne hne _ _
    · simp only [Function.update_self, Bool.false_eq_true, if_false, hcounted]
      omega
    · exact hneeded
    · intro i
      simp only [c₁, hc.nodup_notUse.mem_erase_iff]
      simp
    · intro i
      simp only [c₁, hc.nodup_inUse.mem_erase_iff]
      simp
    · exact ⟨hc.nodup_notUse.erase e, hc.nodup_inUse.erase e⟩
    · have hsize := hc.size
      simp only [c₁]
      rcases hin.mem hc with hnotUse | hinUse
      · have hpos := List.length_pos_of_mem hnotUse
        rw [List.length_erase_of_mem hnotUse, List.erase_of_not_mem (hc.notMem_inUse hnotUse)]
        omega
      · have hpos := List.length_pos_of_mem hinUse
        have hout : e ∉ c.notUse := by
          intro hnotUse
          exact hc.notMem_inUse hnotUse hinUse
        rw [List.length_erase_of_mem hinUse, List.erase_of_not_mem hout]
        omega
  have hcaches : ∀ i key, c₁.Caches i key ↔ i ≠ e ∧ c.Caches i key := by
    intro i key
    by_cases hie : i = e
    · simp [Caches, c₁, hie]
    · simp [Caches, c₁, hie]
  obtain ⟨c', hrun, hc', hsame, hcaches', hlists⟩ := unref_spec (e := e) haside (by simp)
  refine ⟨c', ?_, ?_, ⟨hsame.cacheMap, hsame.maxSize, hsame.count⟩, ?_, ?_⟩
  · simp only [eraseNode, hh, Option.bind_eq_bind, Option.bind_some, if_pos hcached, hremove]
    exact hrun
  · simpa using hc'
  · intro i key
    rw [hcaches', hcaches]
  · exact hlists (by simp [hcaches])

end WorkflowModel.Util.LRUCache
