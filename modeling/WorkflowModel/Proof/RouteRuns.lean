import WorkflowModel.Proof.RouteKeys

/-!
# Which router a call gets

The tree is sorted by the hashes of its routers, and it has no two routers of one hash: a router is linked
only when the search has not found its hash, at the place where the search has ended. A router keeps its hash
and its request object, so whoever comes with the same route later finds the same router.
-/

namespace WorkflowModel.Manager.RouteManager

open WorkflowModel Kernel SearchTree BinTree

variable {lib : Library} {m m' : State}

/-- The tree is sorted, and its routers have been made. -/
structure State.Valid (m : State) : Prop where
  sorted : m.cache.Sorted m.md5Of
  made : ∀ id ∈ m.cache.inorder, id < m.next

/-- The routers of the tree are still there, with what their users know of them. -/
structure State.Keeps (m m' : State) : Prop where
  mem : ∀ id ∈ m.cache.inorder, id ∈ m'.cache.inorder
  md5Of : ∀ id ∈ m.cache.inorder, m'.md5Of id = m.md5Of id
  requestObject : ∀ id ∈ m.cache.inorder, (m'.routers id).requestObject = (m.routers id).requestObject

theorem State.Keeps.refl (m : State) : m.Keeps m := ⟨fun _ h => h, fun _ _ => rfl, fun _ _ => rfl⟩

theorem State.Keeps.trans {m'' : State} (h : m.Keeps m') (h' : m'.Keeps m'') : m.Keeps m'' :=
  ⟨fun id hid => h'.mem id (h.mem id hid), fun id hid => (h'.md5Of id (h.mem id hid)).trans (h.md5Of id hid),
    fun id hid => (h'.requestObject id (h.mem id hid)).trans (h.requestObject id hid)⟩

section Modify

variable (id : Nat) (f : Route.World → Route.World)

theorem modifyRouter_routers (m : State) (other : Nat) :
    ((m.modifyRouter id f).routers other).md5_16 = (m.routers other).md5_16
      ∧ ((m.modifyRouter id f).routers other).requestObject = (m.routers other).requestObject := by
  unfold State.modifyRouter
  dsimp only
  obtain rfl | hne := eq_or_ne other id
  · rw [Function.update_self]
    exact ⟨rfl, rfl⟩
  · rw [Function.update_of_ne hne]
    exact ⟨rfl, rfl⟩

theorem md5Of_modifyRouter (m : State) : (m.modifyRouter id f).md5Of = m.md5Of := by
  funext other
  exact (modifyRouter_routers id f m other).1

theorem keeps_modifyRouter (m : State) : m.Keeps (m.modifyRouter id f) :=
  ⟨fun _ h => h, fun other _ => (modifyRouter_routers id f m other).1,
    fun other _ => (modifyRouter_routers id f m other).2⟩

theorem State.Valid.modifyRouter (hm : m.Valid) : (m.modifyRouter id f).Valid := by
  refine ⟨?_, hm.made⟩
  rw [md5Of_modifyRouter]
  exact hm.sorted

end Modify

section Link

variable {md5 : Nat} {w : Route.World} {object : RequestObject} {q : Request}

theorem link_routers (m : State) (other : Nat) :
    (m.link lib md5 w object q).routers other
      = if other = m.next then { router := w.router, requestObject := object, md5_16 := md5 } else m.routers other := by
  unfold State.link
  dsimp only
  rw [Function.update_apply]

theorem mem_link (hcolor : ∀ t, (lib.rbInsertColor t).inorder = t.inorder) {id : Nat} :
    id ∈ (m.link lib md5 w object q).cache.inorder ↔ id = m.next ∨ id ∈ m.cache.inorder := by
  unfold State.link
  dsimp only
  rw [hcolor, mem_insertLeaf]

theorem State.Valid.keeps_link (hm : m.Valid) (hcolor : ∀ t, (lib.rbInsertColor t).inorder = t.inorder) :
    m.Keeps (m.link lib md5 w object q) := by
  have hold : ∀ id ∈ m.cache.inorder, (m.link lib md5 w object q).routers id = m.routers id := by
    intro id hid
    rw [link_routers, if_neg (hm.made id hid).ne]
  refine ⟨fun id hid => (mem_link hcolor).mpr (.inr hid), ?_, ?_⟩
  · intro id hid
    exact congrArg Entry.md5_16 (hold id hid)
  · intro id hid
    exact congrArg Entry.requestObject (hold id hid)

theorem State.Valid.link (hm : m.Valid) (hcolor : ∀ t, (lib.rbInsertColor t).inorder = t.inorder)
    (hfree : m.cache.findKey m.md5Of md5 = none) : (m.link lib md5 w object q).Valid := by
  have hkeeps : m.Keeps (m.link lib md5 w object q) := hm.keeps_link hcolor
  have hnew : (m.link lib md5 w object q).md5Of m.next = md5 := by
    unfold State.md5Of
    rw [link_routers, if_pos rfl]
  have hsorted : m.cache.Sorted (m.link lib md5 w object q).md5Of := by
    apply List.Pairwise.imp_of_mem _ hm.sorted
    intro x y hx hy hlt
    rwa [hkeeps.md5Of x hx, hkeeps.md5Of y hy]
  have hfree' : m.cache.findKey (m.link lib md5 w object q).md5Of md5 = none := by
    by_contra hfound
    obtain ⟨id, hid⟩ := Option.ne_none_iff_exists'.mp hfound
    obtain ⟨hmem, hkey⟩ := mem_of_findKey hid
    rw [hkeeps.md5Of id hmem] at hkey
    rw [← hkey, findKey_of_mem hm.sorted hmem] at hfree
    cases hfree
  constructor
  · have hinsert := hsorted.insertLeaf (x := m.next) (by rw [hnew]; exact hfree')
    rw [hnew] at hinsert
    unfold BinTree.Sorted at hinsert ⊢
    change (lib.rbInsertColor _).inorder.Pairwise _
    rw [hcolor]
    exact hinsert
  · intro id hid
    obtain rfl | hid := (mem_link hcolor).mp hid
    · exact Nat.lt_succ_self _
    · exact Nat.lt_succ_of_lt (hm.made id hid)

end Link

def Request.key (lib : Library) (q : Request) : Nat := generateKey lib q.type q.addrinfo q.otherInfo

def State.resultOf (m : State) (id : Nat) : RouteResult :=
  { cookie := some id, requestObject := some (m.routers id).requestObject }

theorem get_of_nil {q : Request} (hq : q.addrinfo = []) (m : State) : get lib q m = (m, -1, .clear) := if_pos hq

theorem get_of_found {q : Request} {id : Nat} (hq : q.addrinfo ≠ [])
    (hfound : m.cache.findKey m.md5Of (q.key lib) = some id) :
    get lib q m = (m.modifyRouter id (Route.checkBreaker q.now q.nbreak q.pick), 0, m.resultOf id) := by
  unfold get
  rw [if_neg hq]
  dsimp only
  rw [← Request.key, hfound]
  rfl

theorem get_of_free {q : Request} (hq : q.addrinfo ≠ [])
    (hfree : m.cache.findKey m.md5Of (q.key lib) = none) :
    (∃ w object, get lib q m = (m.link lib (q.key lib) w object q, 0,
        { cookie := some m.next, requestObject := some object }))
      ∨ get lib q m = (m, -1, .clear) := by
  unfold get
  rw [if_neg hq]
  dsimp only
  rw [← Request.key, hfree]
  cases hinit : initRouter q m with
  | none => exact .inr rfl
  | some made => exact .inl ⟨made.1, made.2, rfl⟩

/-- What a call of `get` leaves, and what it returns: a router of its hash, or nothing. -/
theorem State.Valid.get (hm : m.Valid) (hcolor : ∀ t, (lib.rbInsertColor t).inorder = t.inorder) (q : Request) :
    (RouteManager.get lib q m).1.Valid ∧ m.Keeps (RouteManager.get lib q m).1
      ∧ ((RouteManager.get lib q m).2 = (-1, .clear)
        ∨ ∃ id ∈ (RouteManager.get lib q m).1.cache.inorder,
          (RouteManager.get lib q m).1.md5Of id = q.key lib
            ∧ (RouteManager.get lib q m).2 = (0, (RouteManager.get lib q m).1.resultOf id)) := by
  by_cases hq : q.addrinfo = []
  · rw [get_of_nil hq]
    exact ⟨hm, .refl m, .inl rfl⟩
  · cases hfound : m.cache.findKey m.md5Of (q.key lib) with
    | some id =>
        obtain ⟨hmem, hkey⟩ := mem_of_findKey hfound
        rw [get_of_found hq hfound]
        refine ⟨hm.modifyRouter id _, keeps_modifyRouter id _ m, .inr ⟨id, hmem, ?_, ?_⟩⟩
        · rw [md5Of_modifyRouter, hkey]
        · unfold State.resultOf
          rw [(modifyRouter_routers id _ m id).2]
    | none =>
        obtain ⟨w, object, hget⟩ | hget := get_of_free hq hfound
        · rw [hget]
          refine ⟨hm.link hcolor hfound, hm.keeps_link hcolor, .inr ⟨m.next, (mem_link hcolor).mpr (.inl rfl), ?_, ?_⟩⟩
          · unfold State.md5Of
            rw [link_routers, if_pos rfl]
          · unfold State.resultOf
            rw [link_routers, if_pos rfl]
        · rw [hget]
          exact ⟨hm, .refl m, .inl rfl⟩

theorem State.Valid.get_of_mem (hm : m.Valid) {q : Request} {id : Nat} (hq : q.addrinfo ≠ [])
    (hmem : id ∈ m.cache.inorder) (hkey : m.md5Of id = q.key lib) :
    (RouteManager.get lib q m).2 = (0, m.resultOf id) := by
  have hfound := findKey_of_mem hm.sorted hmem
  rw [hkey] at hfound
  rw [get_of_found hq hfound]

theorem State.Valid.step (hm : m.Valid) (hcolor : ∀ t, (lib.rbInsertColor t).inorder = t.inorder) (call : Call) :
    (m.step lib call).Valid ∧ m.Keeps (m.step lib call) := by
  cases call with
  | get q =>
      obtain ⟨hvalid, hkeeps, -⟩ := hm.get hcolor q
      exact ⟨hvalid, hkeeps⟩
  | router cookie op =>
      exact ⟨hm.modifyRouter cookie fun w => w.step op, keeps_modifyRouter cookie (fun w => w.step op) m⟩

theorem State.Valid.run (hm : m.Valid) (hcolor : ∀ t, (lib.rbInsertColor t).inorder = t.inorder)
    (calls : List Call) : (m.run lib calls).Valid ∧ m.Keeps (m.run lib calls) := by
  induction calls generalizing m with
  | nil => exact ⟨hm, .refl m⟩
  | cons call calls ih =>
      obtain ⟨hstep, hkeeps⟩ := hm.step hcolor call
      obtain ⟨hrun, hkeeps'⟩ := ih hstep
      exact ⟨hrun, hkeeps.trans hkeeps'⟩

theorem valid_init (comm : CommScheduler.State) : (State.init comm).Valid :=
  ⟨List.Pairwise.nil, fun _ hid => absurd hid List.not_mem_nil⟩

theorem run_append (calls rest : List Call) (m : State) : m.run lib (calls ++ rest) = (m.run lib calls).run lib rest :=
  List.foldl_append

structure SameRoute (q q' : Request) : Prop where
  type : q'.type = q.type
  otherInfo : q'.otherInfo = q.otherInfo
  addrinfo : q'.addrinfo.Perm q.addrinfo

theorem SameRoute.key {q q' : Request} (h : SameRoute q q') (lib : Library) : q'.key lib = q.key lib := by
  unfold Request.key generateKey
  rw [h.type, h.otherInfo, keyString_of_perm h.addrinfo]

/-- After a request has got a router, a request for the same route gets the same. -/
theorem State.Valid.get_again (hm : m.Valid) (hcolor : ∀ t, (lib.rbInsertColor t).inorder = t.inorder) {q q' : Request}
    (hsame : SameRoute q q') (hmade : (RouteManager.get lib q m).2.1 = 0) (mid : List Call) :
    (RouteManager.get lib q' ((m.step lib (.get q)).run lib mid)).2 = (RouteManager.get lib q m).2 := by
  obtain ⟨hvalid, -, hfailed | ⟨id, hmem, hkey, hresult⟩⟩ := hm.get hcolor q
  · rw [hfailed] at hmade
    exact absurd hmade (by decide)
  · obtain ⟨hend, hkeeps⟩ := hvalid.run hcolor mid
    have hq : q'.addrinfo ≠ [] := by
      intro hnil
      have hperm := hsame.addrinfo
      rw [hnil] at hperm
      rw [get_of_nil hperm.nil_eq.symm] at hmade
      exact absurd hmade (by decide : (-1 : Int) ≠ 0)
    have hkey' : (((RouteManager.get lib q m).1).run lib mid).md5Of id = q'.key lib := by
      rw [hkeeps.md5Of id hmem, hkey, hsame.key]
    have hagain := hend.get_of_mem hq (hkeeps.mem id hmem) hkey'
    calc (RouteManager.get lib q' ((m.step lib (.get q)).run lib mid)).2
        = (0, (((RouteManager.get lib q m).1).run lib mid).resultOf id) := hagain
      _ = (0, (RouteManager.get lib q m).1.resultOf id) := by
          unfold State.resultOf
          rw [hkeeps.requestObject id hmem]
      _ = (RouteManager.get lib q m).2 := hresult.symm

/-- Whatever calls come before and between, two requests for one route get the same router, if the first one gets one;
and the tree never has two routers of one hash. -/
theorem sameRoute_of_run {lib : Library} (hcolor : ∀ t, (lib.rbInsertColor t).inorder = t.inorder)
    (comm : CommScheduler.State) :
    (∀ (before mid : List Call) (q q' : Request), SameRoute q q' →
        (get lib q ((State.init comm).run lib before)).2.1 = 0 →
          (get lib q' ((State.init comm).run lib (before ++ .get q :: mid))).2
            = (get lib q ((State.init comm).run lib before)).2)
      ∧ ∀ calls : List Call, (((State.init comm).run lib calls).cache.inorder.map
          ((State.init comm).run lib calls).md5Of).Nodup := by
  constructor
  · intro before mid q q' hsame hmade
    rw [run_append]
    exact ((valid_init comm).run hcolor before).1.get_again hcolor hsame hmade mid
  · intro calls
    apply List.pairwise_map.mpr
    exact ((valid_init comm).run hcolor calls).1.sorted.imp fun hlt => hlt.ne

def smallLibrary : Library := { md5Integer16 := fun str => str.length, rbInsertColor := id }

def localRequest (addrinfo : List Bytes) : Request :=
  { type := .tcp, addrinfo := addrinfo, otherInfo := bytesOf "?maxconn=4", maxConnections := 200,
    created := fun _ => true, now := 0, nbreak := 0, pick := fun _ => 0 }

def localManager : State := State.init (CommScheduler.initialState fun _ => ⟨4, by decide⟩)

theorem sameRoute_of_run_swapped :
    (get smallLibrary (localRequest [localhost 81, localhost 80])
        (localManager.run smallLibrary [.get (localRequest [localhost 80, localhost 81])])).2
      = (get smallLibrary (localRequest [localhost 80, localhost 81]) localManager).2 := by
  have hcolor : ∀ t, (smallLibrary.rbInsertColor t).inorder = t.inorder := fun _ => rfl
  apply (sameRoute_of_run hcolor _).1 [] []
  · exact ⟨rfl, rfl, List.Perm.swap _ _ _⟩
  · decide

end WorkflowModel.Manager.RouteManager
