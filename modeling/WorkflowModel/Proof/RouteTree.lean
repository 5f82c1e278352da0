import WorkflowModel.Manager.RouteTree
import WorkflowModel.Proof.RBTreeRuns
import WorkflowModel.Proof.RouteRuns

/-!
# The route manager with its tree

The manager with its routers linked in memory does what the manager with a tree of numbers does: the search
goes the same way, and a new router comes between the same neighbours. How the two trees are balanced does not
matter, so nothing is assumed of the rebalancing.
-/

namespace WorkflowModel.Manager.RouteManager

open WorkflowModel Kernel SearchTree RedBlack RedBlack.Path

variable {lib : Library} {m : Table} {s : State} {fuel : Nat}

/-- The nodes in memory are a red-black tree with the routers in the same order, and everything else is the same. -/
structure Table.Refines (m : Table) (s : State) : Prop where
  tree : ∃ t, RBTree.Represents m.cache t ∧ IsRedBlack t ∧ t.inorder = s.cache.inorder
  same : m.withCache s.cache = s

theorem ordered_compare {l : List Nat} {f : Nat → Nat} (h : l.Pairwise fun x y => f x < f y) (key : Nat) :
    Ordered (fun id => compare key (f id)) l := by
  apply h.imp
  intro x y hlt
  dsimp only
  rw [compare_lt_iff_lt, compare_lt_iff_lt, compare_gt_iff_gt, compare_gt_iff_gt]
  exact ⟨fun h => h.trans hlt, fun h => hlt.trans h⟩

namespace Table

theorem Refines.modifyRouter (h : m.Refines s) (id : Nat) (f : Route.World → Route.World) :
    (m.modifyRouter id f).Refines (s.modifyRouter id f) := by
  obtain ⟨htree, hsame⟩ := h
  refine ⟨htree, ?_⟩
  rw [← hsame]
  rfl

/-- How the search for a key ends: at the router that has it, or at the place for one. -/
theorem Refines.descend (h : m.Refines s) (hs : s.Valid) (hfuel : s.cache.inorder.length < fuel) (key : Nat) :
    (∃ id, s.cache.findKey s.md5Of key = some id
      ∧ RBTree.descend (fun id => compare key (m.routers id).md5_16) fuel none .root m.cache = some (.found id))
    ∨ s.cache.findKey s.md5Of key = none ∧ ∃ free : Path Nat,
      RBTree.descend (fun id => compare key (m.routers id).md5_16) fuel none .root m.cache
        = some (.free (top free) (RBTree.linkOf free))
      ∧ RBTree.Stands m.cache free .leaf ∧ IsRedBlack (fill free .leaf)
      ∧ (fill free .leaf).inorder = s.cache.inorder
      ∧ (∀ id ∈ before free, s.md5Of id < key) ∧ ∀ id ∈ after free, key < s.md5Of id := by
  obtain ⟨⟨t, ht, hredblack, horder⟩, hsame⟩ := h
  have hkeys : (fun id => compare key (m.routers id).md5_16) = fun id => compare key (s.md5Of id) := by
    rw [← hsame]
    rfl
  rw [hkeys]
  have hspec := RBTree.descend_spec (fun id => compare key (s.md5Of id)) ht (by rwa [horder])
  cases hplace : place (fun id => compare key (s.md5Of id)) [] t with
  | none =>
      rw [hplace] at hspec
      obtain ⟨id, hfound⟩ := hspec
      obtain ⟨heq, hlinked⟩ := RBTree.linked_of_descend hfound fun _ hroot => .root hroot
      have hid := ht.linked_iff.mp hlinked
      rw [horder] at hid
      refine .inl ⟨id, ?_, hfound⟩
      rw [compare_eq_iff_eq.mp heq]
      exact BinTree.findKey_of_mem hs.sorted hid
  | some free =>
      rw [hplace] at hspec
      have hsorted : t.inorder.Pairwise fun x y => s.md5Of x < s.md5Of y := by
        rw [horder]
        exact hs.sorted
      obtain ⟨hbefore, hafter⟩ := place_sides hplace (ordered_compare hsorted key)
        (fun _ hid => absurd hid List.not_mem_nil) (fun _ hid => absurd hid List.not_mem_nil)
      obtain rfl : fill free .leaf = t := fill_place hplace
      refine .inr ⟨?_, free, hspec, RBTree.represents_fill.mp ht, hredblack, horder, ?_, ?_⟩
      · by_contra hfound
        obtain ⟨id, hid⟩ := Option.ne_none_iff_exists'.mp hfound
        obtain ⟨hmem, hkey⟩ := BinTree.mem_of_findKey hid
        rw [← horder, inorder_fill, ColoredTree.inorder, List.append_nil] at hmem
        have hne : compare key (s.md5Of id) ≠ .eq := by
          rcases List.mem_append.mp hmem with hmem | hmem
          · rw [hbefore id hmem]
            decide
          · rw [hafter id hmem]
            decide
        exact hne (compare_eq_iff_eq.mpr hkey.symm)
      · exact fun id hid => compare_gt_iff_gt.mp (hbefore id hid)
      · exact fun id hid => compare_lt_iff_lt.mp (hafter id hid)

/-- A router that is linked where the search has ended stands in both trees at the same place. -/
theorem Refines.link (h : m.Refines s) (hs : s.Valid) (hcolor : ∀ t, (lib.rbInsertColor t).inorder = t.inorder)
    {free : Path Nat} (hstands : RBTree.Stands m.cache free .leaf) (hredblack : IsRedBlack (fill free .leaf))
    (horder : (fill free .leaf).inorder = s.cache.inorder) {md5 : Nat}
    (hbefore : ∀ id ∈ before free, s.md5Of id < md5) (hafter : ∀ id ∈ after free, md5 < s.md5Of id)
    (hfuel : s.cache.inorder.length < fuel) (w : Route.World) (object : RequestObject) (q : Request) :
    ∃ m', m.link fuel md5 w object q (top free) (RBTree.linkOf free) = some m'
      ∧ m'.Refines (s.link lib md5 w object q) := by
  have hnext : m.next = s.next := congrArg State.next h.same
  have hsplit : s.cache.inorder = before free ++ after free := by
    rw [← horder, inorder_fill, ColoredTree.inorder, List.append_nil]
  have hnew : m.next ∉ (fill free .leaf).inorder := by
    rw [horder, hnext]
    exact fun hmem => (hs.made _ hmem).false
  obtain ⟨cache, t, hcache, ht, hplaced, hredblack'⟩ :=
    RBTree.linked_spec hstands hredblack hnew (by rwa [horder])
  have hkept : ∀ id ∈ s.cache.inorder, ((s.link lib md5 w object q).routers id).md5_16 = s.md5Of id :=
    fun id hid => (hs.keeps_link hcolor).md5Of id hid
  have hlinked : (s.link lib md5 w object q).cache.inorder = before free ++ s.next :: after free := by
    refine (hcolor _).trans (BinTree.inorder_insertLeaf_of_sides hsplit ?_ ?_ s.next)
    · intro id hid
      apply decide_eq_false
      have hmd5 := hkept id (by rw [hsplit]; exact List.mem_append_left _ hid)
      exact fun hlt => (hbefore id hid).asymm (hmd5 ▸ hlt)
    · intro id hid
      apply decide_eq_true
      have hmd5 := hkept id (by rw [hsplit]; exact List.mem_append_right _ hid)
      exact hmd5.symm ▸ hafter id hid
  refine ⟨{ cache := cache
            routers := Function.update m.routers m.next { router := w.router, requestObject := object, md5_16 := md5 }
            next := m.next + 1
            nextTarget := m.nextTarget + q.addrinfo.length
            comm := w.comm }, ?_, ⟨t, ht, hredblack', ?_⟩, ?_⟩
  · rw [Table.link, hcache]
    rfl
  · rw [hplaced, hlinked, hnext]
  · rw [← h.same]
    rfl

/-- A call on the manager in memory ends, and it does what the call on the other does. -/
theorem Refines.get (h : m.Refines s) (hs : s.Valid) (hcolor : ∀ t, (lib.rbInsertColor t).inorder = t.inorder)
    (hfuel : s.cache.inorder.length < fuel) (q : Request) :
    ∃ m', m.get fuel lib q = some (m', (RouteManager.get lib q s).2)
      ∧ m'.Refines (RouteManager.get lib q s).1 := by
  by_cases hq : q.addrinfo = []
  · rw [get_of_nil hq, Table.get, if_pos hq]
    exact ⟨m, rfl, h⟩
  · rw [Table.get, if_neg hq]
    rcases h.descend hs hfuel (q.key lib) with
      ⟨id, hfound, hdescend⟩ | ⟨hfree, free, hdescend, hstands, hredblack, horder, hbefore, hafter⟩
    · rw [get_of_found hq hfound]
      refine ⟨_, ?_, h.modifyRouter id _⟩
      have hentry : m.routers id = s.routers id := congrFun (congrArg State.routers h.same) id
      have hkey : RBTree.descend (fun id => compare (generateKey lib q.type q.addrinfo q.otherInfo)
          (m.routers id).md5_16) fuel none .root m.cache = some (.found id) := hdescend
      simp only [hkey, Option.bind_eq_bind, Option.bind_some, hentry, State.resultOf]
      rfl
    · have hkey : RBTree.descend (fun id => compare (generateKey lib q.type q.addrinfo q.otherInfo)
          (m.routers id).md5_16) fuel none .root m.cache = some (.free (top free) (RBTree.linkOf free)) := hdescend
      have hinit : initRouter q (m.withCache .leaf) = initRouter q s := by
        rw [← h.same]
        rfl
      have hnext : m.next = s.next := congrArg State.next h.same
      simp only [hkey, Option.bind_eq_bind, Option.bind_some, hinit]
      unfold RouteManager.get
      rw [if_neg hq]
      dsimp only
      rw [← Request.key, hfree]
      cases initRouter q s with
      | none => exact ⟨m, rfl, h⟩
      | some made =>
          obtain ⟨m', hm', hrefines⟩ :=
            h.link hs hcolor hstands hredblack horder hbefore hafter hfuel made.1 made.2 q
          refine ⟨m', ?_, hrefines⟩
          simp only [hm', Option.bind_some, hnext]
          rfl

theorem Refines.step (h : m.Refines s) (hs : s.Valid) (hcolor : ∀ t, (lib.rbInsertColor t).inorder = t.inorder)
    (hfuel : s.cache.inorder.length < fuel) (call : Call) :
    ∃ m', m.step fuel lib call = some m' ∧ m'.Refines (s.step lib call) := by
  cases call with
  | get q =>
      obtain ⟨m', hget, hrefines⟩ := h.get hs hcolor hfuel q
      exact ⟨m', by rw [Table.step, hget]; rfl, hrefines⟩
  | router cookie op => exact ⟨_, rfl, h.modifyRouter cookie fun w => w.step op⟩

end Table

theorem length_step_le (hcolor : ∀ t, (lib.rbInsertColor t).inorder = t.inorder) (s : State) (call : Call) :
    (s.step lib call).cache.inorder.length ≤ s.cache.inorder.length + 1 := by
  cases call with
  | router cookie op => exact Nat.le_succ _
  | get q =>
      rw [State.step]
      by_cases hq : q.addrinfo = []
      · rw [get_of_nil hq]
        exact Nat.le_succ _
      · cases hfound : s.cache.findKey s.md5Of (q.key lib) with
        | some id =>
            rw [get_of_found hq hfound]
            exact Nat.le_succ _
        | none =>
            obtain ⟨w, object, hget⟩ | hget := get_of_free hq hfound
            · rw [hget, State.link, hcolor, BinTree.length_insertLeaf]
            · rw [hget]
              exact Nat.le_succ _

namespace Table

theorem Refines.run (h : m.Refines s) (hs : s.Valid) (hcolor : ∀ t, (lib.rbInsertColor t).inorder = t.inorder)
    (calls : List Call) (hfuel : s.cache.inorder.length + calls.length < fuel) :
    ∃ m', m.run fuel lib calls = some m' ∧ m'.Refines (s.run lib calls)
      ∧ (s.run lib calls).cache.inorder.length ≤ s.cache.inorder.length + calls.length := by
  induction calls generalizing m s with
  | nil => exact ⟨m, rfl, h, Nat.le_add_right _ _⟩
  | cons call calls ih =>
      rw [List.length_cons] at hfuel
      have hroom : s.cache.inorder.length < fuel := by omega
      obtain ⟨m₁, hstep, hrefines⟩ := h.step hs hcolor hroom call
      have hgrown := length_step_le hcolor s call
      obtain ⟨m', hrun, hrefines', hlength⟩ := ih hrefines (hs.step hcolor call).1 (by omega)
      refine ⟨m', ?_, hrefines', ?_⟩
      · rw [Table.run, List.foldlM_cons, hstep]
        exact hrun
      · rw [List.length_cons]
        exact hlength.trans (by omega)

theorem refines_init (comm : CommScheduler.State) (nodes : Nat → RBTree.RbNode) :
    (Table.init comm nodes).Refines (State.init comm) :=
  ⟨⟨.leaf, ⟨rfl, trivial, List.nodup_nil⟩, ⟨rfl, 0, .leaf⟩, rfl⟩, rfl⟩

end Table

/-- With the kernel's own tree, every run of calls ends, and it leaves a red-black tree with the hashes in
order. Two requests for one route get the same router, whatever calls come before and between. -/
theorem sameRoute_of_tableRun (lib : Library) (comm : CommScheduler.State) (nodes : Nat → RBTree.RbNode) (fuel : Nat) :
    (∀ calls : List Call, calls.length < fuel →
      ∃ m t, (Table.init comm nodes).run fuel lib calls = some m ∧ RBTree.Represents m.cache t ∧ IsRedBlack t
        ∧ t.inorder.Pairwise fun x y => (m.routers x).md5_16 < (m.routers y).md5_16)
    ∧ ∀ (before mid : List Call) (q q' : Request), before.length + 1 + mid.length < fuel → SameRoute q q' →
      ∃ m₁ m₂ first second, ((Table.init comm nodes).run fuel lib before).bind (Table.get fuel lib q) = some (m₁, first)
        ∧ (m₁.run fuel lib mid).bind (Table.get fuel lib q') = some (m₂, second)
        ∧ (first.1 = 0 → second = first) := by
  -- the tree of the other manager may be balanced in any way
  let plain : Library := { md5Integer16 := lib.md5Integer16, rbInsertColor := id }
  have hcolor : ∀ t, (plain.rbInsertColor t).inorder = t.inorder := fun _ => rfl
  have hvalid := valid_init comm
  have hinit := Table.refines_init comm nodes
  have hempty : (State.init comm).cache.inorder.length = 0 := rfl
  constructor
  · intro calls hfuel
    have hroom : (State.init comm).cache.inorder.length + calls.length < fuel := by omega
    obtain ⟨m, hrun, ⟨⟨t, ht, hredblack, horder⟩, hsame⟩, -⟩ := hinit.run hvalid hcolor calls hroom
    refine ⟨m, t, hrun, ht, hredblack, ?_⟩
    have hsorted := (hvalid.run hcolor calls).1.sorted
    rw [BinTree.Sorted, ← horder, ← hsame] at hsorted
    exact hsorted
  · intro before mid q q' hfuel hroute
    have hroom : (State.init comm).cache.inorder.length + before.length < fuel := by omega
    obtain ⟨m, hbefore, hrefines, hlength⟩ := hinit.run hvalid hcolor before hroom
    have hs := (hvalid.run hcolor before).1
    have hfree : ((State.init comm).run plain before).cache.inorder.length < fuel := by omega
    obtain ⟨m₁, hfirst, hrefines₁⟩ := hrefines.get hs hcolor hfree q
    have hgrown := length_step_le hcolor ((State.init comm).run plain before) (.get q)
    have hs₁ := (hs.step hcolor (.get q)).1
    have hroom₁ : (((State.init comm).run plain before).step plain (.get q)).cache.inorder.length + mid.length < fuel := by
      omega
    obtain ⟨m', hmid, hrefines', hlength'⟩ := hrefines₁.run hs₁ hcolor mid hroom₁
    have hs' := (hs₁.run hcolor mid).1
    obtain ⟨m₂, hsecond, -⟩ := hrefines'.get hs' hcolor (hlength'.trans_lt hroom₁) q'
    refine ⟨m₁, m₂, _, _, ?_, ?_, fun hmade => hs.get_again hcolor hroute hmade mid⟩
    · exact Option.bind_eq_some_iff.mpr ⟨m, hbefore, hfirst⟩
    · exact Option.bind_eq_some_iff.mpr ⟨m', hmid, hsecond⟩

/-- The manager before its first call, with nodes that have been used for something else. -/
def localTable : Table :=
  .init localManager.comm fun _ => { parent := some 9, right := some 9, left := some 9, color := .black }

def typeLibrary : Library := { smallLibrary with md5Integer16 := fun str => (str.getD 2 0).toNat }

def sctpRequest (addrinfo : List Bytes) : Request := { localRequest addrinfo with type := .sctp }

def twoRoutes : List Call :=
  [.get (localRequest [localhost 80]), .get { localRequest [localhost 80] with type := .udp }]

/-- The third router rotates the tree, and it is found again under the other order of its addresses. -/
theorem sameRoute_of_tableRun_rotated :
    ∃ m₁ m₂ first second,
      (localTable.run 4 typeLibrary twoRoutes).bind
          (Table.get 4 typeLibrary (sctpRequest [localhost 80, localhost 81])) = some (m₁, first)
        ∧ m₁.cache.root = some 1 ∧ first.1 = 0
        ∧ (m₁.run 4 typeLibrary []).bind
            (Table.get 4 typeLibrary (sctpRequest [localhost 81, localhost 80])) = some (m₂, second)
        ∧ second = first := by
  have hroute : SameRoute (sctpRequest [localhost 80, localhost 81]) (sctpRequest [localhost 81, localhost 80]) :=
    ⟨rfl, rfl, List.Perm.swap _ _ _⟩
  obtain ⟨m₁, m₂, first, second, hfirst, hsecond, hsame⟩ :=
    (sameRoute_of_tableRun typeLibrary _ _ 4).2 twoRoutes [] _ _ (by decide) hroute
  have hthird : (localTable.run 4 typeLibrary twoRoutes).bind
      (Table.get 4 typeLibrary (sctpRequest [localhost 80, localhost 81])) = some (m₁, first) := hfirst
  have hrotated : ((localTable.run 4 typeLibrary twoRoutes).bind
      (Table.get 4 typeLibrary (sctpRequest [localhost 80, localhost 81]))).map
        (fun r => (r.1.cache.root, r.2.1)) = some (some 1, 0) := by decide +kernel
  rw [hthird] at hrotated
  obtain ⟨hroot, hzero⟩ := Prod.mk.inj (Option.some.inj hrotated)
  exact ⟨m₁, m₂, first, second, hthird, hroot, hzero, hsecond, hsame hzero⟩

end WorkflowModel.Manager.RouteManager
