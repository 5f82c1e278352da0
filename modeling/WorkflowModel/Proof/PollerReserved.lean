import WorkflowModel.Proof.PollerDrain
import WorkflowModel.Proof.PollerExpiry
import WorkflowModel.Proof.PollerHandover

/-!
# The poller's own descriptors

The table holds the value `POLLER_NODE_ERROR` for the descriptors of the poller itself. Through all runs
the entries with this value are those of its own descriptors, because no node is ever made for one of them.
`poller_add` and `poller_mod` compare an entry with the value before they use it; `poller_del` and
`poller_set_timeout` only compare it with NULL, and then use the value as a pointer.
-/

namespace WorkflowModel.Kernel

namespace Poller

variable {p q r : Poller} {own : List Nat}

/-- The entries with `POLLER_NODE_ERROR` are those of `own`, and no node is for one of them. -/
structure Guarded (own : List Nat) (p : Poller) : Prop where
  reserved : ∀ fd, p.nodes fd = .reserved ↔ fd ∈ own
  foreign : ∀ n, 0 ≤ (p.node n).fd → (p.node n).fd.toNat ∉ own
  registered : ∀ fd n event, p.interest fd = some (.node n, event) → n < p.count ∧ 0 ≤ (p.node n).fd

/-- Entries that are not of `own` are emptied, and descriptors are taken from `epoll`. -/
structure Clears (own : List Nat) (p q : Poller) : Prop where
  nodes : ∀ fd, q.nodes fd = p.nodes fd ∨ (fd ∉ own ∧ q.nodes fd = .empty)
  interest : ∀ fd, q.interest fd = p.interest fd ∨ q.interest fd = none
  count : q.count = p.count
  fd : ∀ n, (q.node n).fd = (p.node n).fd

namespace Clears

theorem refl (p : Poller) : Clears own p p :=
  ⟨fun _ => .inl rfl, fun _ => .inl rfl, rfl, fun _ => rfl⟩

theorem trans (h : Clears own p q) (h' : Clears own q r) : Clears own p r where
  nodes fd := by
    obtain hsame | hempty := h'.nodes fd
    · rw [hsame]
      exact h.nodes fd
    · exact .inr hempty
  interest fd := by
    obtain hsame | hnone := h'.interest fd
    · rw [hsame]
      exact h.interest fd
    · exact .inr hnone
  count := h'.count.trans h.count
  fd n := (h'.fd n).trans (h.fd n)

theorem of_onlyLinks (h : OnlyLinks p q) : Clears own p q :=
  ⟨fun fd => .inl (congrFun h.nodes fd), fun fd => .inl (congrFun h.interest fd), h.count, h.fd⟩

end Clears

theorem Guarded.clear (h : Guarded own p) (hq : Clears own p q) : Guarded own q where
  reserved fd := by
    obtain hsame | ⟨hforeign, hempty⟩ := hq.nodes fd
    · rw [hsame]
      exact h.reserved fd
    · rw [hempty]
      exact iff_of_false (by simp) hforeign
  foreign n := by
    rw [hq.fd]
    exact h.foreign n
  registered fd n event hn := by
    obtain hsame | hnone := hq.interest fd
    · rw [hq.count, hq.fd]
      exact h.registered fd n event (hsame ▸ hn)
    · rw [hnone] at hn
      cases hn

theorem clears_clear {fd : Nat} (hfd : fd ∉ own) (p : Poller) :
    Clears own p ((p.setSlot fd .empty).delFd fd) := by
  refine ⟨?_, ?_, rfl, fun _ => rfl⟩
  · intro k
    by_cases hk : k = fd
    · rw [hk]
      exact .inr ⟨hfd, Function.update_self ..⟩
    · exact .inl (Function.update_of_ne hk ..)
  · intro k
    by_cases hk : k = fd
    · rw [hk]
      exact .inr (Function.update_self ..)
    · exact .inl (Function.update_of_ne hk ..)

theorem Guarded.clears_forget (h : Guarded own p) (n : Nat) : Clears own p (p.forget (p.node n).fd) := by
  unfold forget
  split_ifs with hfd
  · exact clears_clear (h.foreign n hfd) p
  · exact Clears.refl p

theorem clears_setResult (n : Nat) (state : ResultState) (error : Int) (p : Poller) :
    Clears own p (p.setResult n state error) :=
  .of_onlyLinks (onlyLinks_setNode rfl rfl rfl rfl)

theorem clears_log (log : List Action) (p : Poller) : Clears own p { p with log := log } :=
  ⟨fun _ => .inl rfl, fun _ => .inl rfl, rfl, fun _ => rfl⟩

theorem clears_retire (n : Nat) (state : ResultState) (p : Poller) :
    Clears own p (p.retire n state) := by
  obtain ⟨hnodes, hinterest, hcount⟩ := retire_frame n state p
  exact ⟨fun fd => .inl (congrFun hnodes fd), fun fd => .inl (congrFun hinterest fd), hcount,
    retire_field PollerNode.fd (fun _ _ _ => rfl) (fun _ _ => rfl) n state p⟩

theorem clears_unlink {fd : Nat} (hfd : fd ∉ own) (n : Nat) (p : Poller) :
    Clears own p (((p.setSlot fd .empty).unlink n).delFd fd) := by
  have hunlink := onlyLinks_unlink n (p.setSlot fd .empty)
  have hclear := clears_clear hfd p
  refine ⟨?_, ?_, hunlink.count, hunlink.fd⟩
  · intro k
    change ((p.setSlot fd .empty).unlink n).nodes k = _ ∨ _ ∧ ((p.setSlot fd .empty).unlink n).nodes k = _
    rw [hunlink.nodes]
    exact hclear.nodes k
  · intro k
    simp only [delFd]
    rw [hunlink.interest]
    exact hclear.interest k

theorem Guarded.alloc (h : Guarded own p) {node : PollerNode}
    (hforeign : 0 ≤ node.fd → node.fd.toNat ∉ own) : Guarded own (p.alloc node) where
  reserved := h.reserved
  foreign n := by
    by_cases hn : n = p.count
    · rw [hn, alloc_node_self]
      exact hforeign
    · simp only [Poller.alloc, Function.update_of_ne hn]
      exact h.foreign n
  registered fd n event hn := by
    obtain ⟨hlt, hfd⟩ := h.registered fd n event hn
    rw [alloc_node_of_lt node hlt]
    exact ⟨Nat.lt_succ_of_lt hlt, hfd⟩

theorem Guarded.setNodeSlot (h : Guarded own p) {fd : Nat} (hfd : fd ∉ own) (n : Nat) :
    Guarded own (p.setSlot fd (.node n)) where
  reserved k := by
    simp only [setSlot]
    by_cases hk : k = fd
    · rw [hk, Function.update_self]
      exact iff_of_false (by simp) hfd
    · rw [Function.update_of_ne hk]
      exact h.reserved k
  foreign := h.foreign
  registered := h.registered

theorem Guarded.addFd (h : Guarded own p) {n : Nat} (hn : n < p.count) (hfd : 0 ≤ (p.node n).fd)
    (fd event : Nat) : Guarded own (p.addFd fd event (.node n)) where
  reserved := h.reserved
  foreign := h.foreign
  registered k j mask hj := by
    simp only [Poller.addFd] at hj
    by_cases hk : k = fd
    · rw [hk, Function.update_self] at hj
      cases hj
      exact ⟨hn, hfd⟩
    · rw [Function.update_of_ne hk] at hj
      exact h.registered k j mask hj

theorem Guarded.not_mem_own (h : Guarded own p) {fd : Nat} (hslot : p.nodes fd ≠ .reserved) :
    fd ∉ own := fun hmem => hslot ((h.reserved fd).2 hmem)

theorem Guarded.add (h : Guarded own p) {data : PollerData} {timeout : Int} {now : Timespec}
    {result : Except Errno Unit × Poller} (hadd : p.add data timeout now = some result) :
    Guarded own result.2 := by
  obtain ⟨heq, -⟩ | ⟨event, hfd, -, hslot, heq⟩ := add_cases hadd
  · rw [heq]
    exact h
  · have hforeign : data.fd.toNat ∉ own := h.not_mem_own (by simp [hslot])
    have hnode : (newNode data.operation data.fd event (deadline now timeout)).fd = data.fd := rfl
    rw [heq]
    apply Guarded.setNodeSlot _ hforeign
    refine Guarded.clear (Guarded.addFd (h.alloc ?_) ?_ ?_ _ _) (.of_onlyLinks (onlyLinks_place _ _ _))
    · exact fun _ => hforeign
    · exact Nat.lt_succ_self _
    · rw [alloc_node_self, hnode]
      exact fdError_eq_none hfd

theorem Guarded.del (h : Guarded own p) {fd : Int} {result : Except Errno Unit × Poller}
    (hdel : p.del fd = some result) : Guarded own result.2 := by
  obtain ⟨heq, -⟩ | ⟨n, -, hslot, heq⟩ := del_cases hdel
  · rw [heq]
    exact h
  · rw [heq]
    have hforeign : fd.toNat ∉ own := h.not_mem_own (by simp [hslot])
    exact h.clear ((clears_unlink hforeign n p).trans (clears_retire n .deleted _))

theorem Guarded.mod (h : Guarded own p) {data : PollerData} {timeout : Int} {now : Timespec}
    {result : Except Errno Unit × Poller} (hmod : p.mod data timeout now = some result) :
    Guarded own result.2 := by
  obtain ⟨heq, -⟩ | ⟨event, old, hfd, -, hslot, heq⟩ := mod_cases hmod
  · rw [heq]
    exact h
  · have hforeign : data.fd.toNat ∉ own := h.not_mem_own (by simp [hslot])
    rw [heq]
    apply Guarded.setNodeSlot _ hforeign
    refine Guarded.clear (Guarded.alloc (h.clear ?_) ?_) (.of_onlyLinks (onlyLinks_place _ _ _))
    · exact (Clears.of_onlyLinks (onlyLinks_unlink old p)).trans (clears_retire old .modified _)
    · exact fun _ => hforeign

theorem clears_setTimeout {fd timeout : Int} {now : Timespec} {result : Except Errno Unit × Poller}
    (hset : p.setTimeout fd timeout now = some result) : Clears own p result.2 := by
  obtain ⟨heq, -⟩ | ⟨n, -, -, heq⟩ := setTimeout_cases hset
  · rw [heq]
    exact Clears.refl p
  · rw [heq]
    refine (Clears.of_onlyLinks (onlyLinks_unlink n p)).trans (Clears.trans ?_
      (.of_onlyLinks (onlyLinks_place n _ _)))
    split_ifs
    · exact .of_onlyLinks (onlyLinks_setNode rfl rfl rfl rfl)
    · exact Clears.refl _

theorem Guarded.call (h : Guarded own p) {call : Call} (hcall : p.call call = some q) :
    Guarded own q := by
  apply call_keeps hcall h.add h.del h.mod
  · intro fd timeout now result hset
    exact h.clear (clears_setTimeout hset)
  · intro value now
    refine (h.alloc ?_).clear (.of_onlyLinks (onlyLinks_insertNode p.count _))
    intro hfd
    simp [newNode] at hfd

/-- Nodes that the thread got from `epoll`. -/
def Known (p : Poller) (ns : List Nat) : Prop := ∀ n ∈ ns, n < p.count ∧ 0 ≤ (p.node n).fd

theorem Known.clear {ns : List Nat} (h : Known p ns) (hq : Clears own p q) : Known q ns := by
  intro n hn
  rw [hq.count, hq.fd]
  exact h n hn

theorem Known.onlyLinks {ns : List Nat} (h : Known p ns) (hq : OnlyLinks p q) : Known q ns := by
  have hclears : Clears [] p q := .of_onlyLinks hq
  exact h.clear hclears

theorem Known.subset {ns ms : List Nat} (h : Known p ns) (hms : ms ⊆ ns) : Known p ms :=
  fun n hn => h n (hms hn)

theorem Known.alloc {ns : List Nat} (h : Known p ns) (node : PollerNode) : Known (p.alloc node) ns := by
  intro n hn
  obtain ⟨hlt, hfd⟩ := h n hn
  rw [alloc_node_of_lt node hlt]
  exact ⟨Nat.lt_succ_of_lt hlt, hfd⟩

/-- Nodes that exist stay what they are when users make their calls. -/
theorem Known.call {ns : List Nat} (h : Known p ns) {call : Call} (hcall : p.call call = some q) :
    Known q ns := by
  cases call with
  | add data timeout now =>
      obtain ⟨result, hadd, rfl⟩ := Option.map_eq_some_iff.1 hcall
      obtain ⟨heq, -⟩ | ⟨event, -, -, -, heq⟩ := add_cases hadd
      · rw [heq]
        exact h
      · have hadded : Known ((p.alloc (newNode data.operation data.fd event
            (deadline now timeout))).addFd data.fd.toNat event (.node p.count)) ns :=
          h.alloc (newNode data.operation data.fd event (deadline now timeout))
        have hplaced := hadded.onlyLinks (onlyLinks_place p.count (decide (0 ≤ timeout)) _)
        rw [heq]
        exact hplaced
  | del fd =>
      obtain ⟨result, hdel, rfl⟩ := Option.map_eq_some_iff.1 hcall
      obtain ⟨heq, -⟩ | ⟨n, -, -, heq⟩ := del_cases hdel
      · rw [heq]
        exact h
      · have hclears : Clears [] p result.2 := by
          rw [heq]
          exact (clears_unlink List.not_mem_nil n p).trans (clears_retire n .deleted _)
        exact h.clear hclears
  | mod data timeout now =>
      obtain ⟨result, hmod, rfl⟩ := Option.map_eq_some_iff.1 hcall
      obtain ⟨heq, -⟩ | ⟨event, old, -, -, -, heq⟩ := mod_cases hmod
      · rw [heq]
        exact h
      · have hretired : Clears [] p ((p.unlink old).retire old .modified) :=
          (Clears.of_onlyLinks (onlyLinks_unlink old p)).trans (clears_retire old .modified _)
        have halloc := (h.clear hretired).alloc
          (newNode data.operation data.fd event (deadline now timeout))
        have hplaced := halloc.onlyLinks
          (onlyLinks_place ((p.unlink old).retire old .modified).count (decide (0 ≤ timeout)) _)
        rw [heq]
        exact hplaced
  | setTimeout fd timeout now =>
      obtain ⟨result, hset, rfl⟩ := Option.map_eq_some_iff.1 hcall
      have hclears : Clears [] p result.2 := clears_setTimeout hset
      exact h.clear hclears
  | addTimer value now =>
      cases hcall
      exact (h.alloc _).onlyLinks (onlyLinks_insertNode p.count _)

theorem Guarded.known_events (h : Guarded own p) {ready : List Nat} {events : List EventData}
    (hevents : ready.mapM (fun fd => (p.interest fd).map Prod.fst) = some events) :
    Known p (batchNodes events) := by
  induction ready generalizing events with
  | nil =>
      cases hevents
      simp [Known, batchNodes]
  | cons fd ready ih =>
      rw [List.mapM_cons] at hevents
      obtain ⟨event, hevent, hevents⟩ := Option.bind_eq_some_iff.1 hevents
      obtain ⟨rest, hrest, heq⟩ := Option.bind_eq_some_iff.1 hevents
      cases heq
      have hlater := ih hrest
      cases event with
      | timer => exact hlater
      | pipe => exact hlater
      | node n =>
          obtain ⟨⟨_, mask⟩, hinterest, rfl⟩ := Option.map_eq_some_iff.1 hevent
          intro j hj
          obtain rfl | hj := List.mem_cons.1 hj
          · exact h.registered fd j mask hinterest
          · exact hlater j hj

theorem Guarded.clears_removeNode (h : Guarded own p) {n : Nat} (hfd : 0 ≤ (p.node n).fd) :
    Clears own p (p.removeNode n).2 := by
  unfold removeNode
  split_ifs
  · exact Clears.refl p
  · exact clears_unlink (h.foreign n hfd) n p

theorem Guarded.clears_expireList (h : Guarded own p) (now : Timespec) (l : List Nat) :
    Clears own p (expireList now l p).2 := by
  induction l generalizing p with
  | nil => exact Clears.refl p
  | cons n rest ih =>
      simp only [expireList]
      split_ifs
      · have hforget := h.clears_forget n
        have htaken : Clears own p { p.forget (p.node n).fd with timeoList := p.timeoList.erase n } :=
          ⟨hforget.nodes, hforget.interest, hforget.count, hforget.fd⟩
        exact htaken.trans (ih (h.clear htaken))
      · exact Clears.refl p

theorem Guarded.clears_expireTree (h : Guarded own p) (now : Timespec) (fuel : Nat) :
    Clears own p (expireTree now fuel p).2 := by
  induction fuel generalizing p with
  | zero => exact Clears.refl p
  | succ fuel ih =>
      simp only [expireTree]
      split
      · exact Clears.refl p
      next n _ =>
        split_ifs
        · have hforget := h.clears_forget n
          have htaken : Clears own p { p.forget (p.node n).fd with
              treeFirst := rbNext n p.timeoTree
              timeoTree := p.timeoTree.erase n } :=
            ⟨hforget.nodes, hforget.interest, hforget.count, hforget.fd⟩
          exact htaken.trans (ih (h.clear htaken))
        · exact Clears.refl p

theorem clears_handleEvent (own : List Nat) (io : Io) (event : EventData) (batch : Batch) (p : Poller) :
    Clears own p (p.handleEvent io event batch).2
      ∧ awaited (p.handleEvent io event batch).1 ⊆ batchNodes (event :: batch.rest) := by
  cases event with
  | timer => exact ⟨Clears.refl p, List.Subset.refl _⟩
  | pipe => exact ⟨Clears.refl p, List.Subset.refl _⟩
  | node n =>
      have hrest : batchNodes batch.rest ⊆ n :: batchNodes batch.rest := List.subset_cons_self n _
      simp only [handleEvent]
      split
      · split
        · exact ⟨clears_log _ p, hrest⟩
        · exact ⟨clears_log _ p, List.Subset.refl _⟩
      · split_ifs
        · exact ⟨clears_log _ p, List.Subset.refl _⟩
        · exact ⟨clears_log _ p, List.Subset.refl _⟩
      · exact ⟨Clears.refl p, hrest⟩

theorem Guarded.threadStep (h : Guarded own p) {io : Io} {pc pc' : Pc}
    (hknown : Known p (awaited pc)) (hstep : threadStep io pc p = some (pc', q)) :
    Clears own p q ∧ Known q (awaited pc') := by
  cases pc with
  | setTimer =>
      cases hstep
      exact ⟨(clears_log _ p).trans (.of_onlyLinks (onlyLinks_setTimer _)), by simp [Known, awaited]⟩
  | wait =>
      obtain ⟨events, hevents, heq⟩ := Option.map_eq_some_iff.1 hstep
      cases heq
      have hrecord : Clears own p (p.record (.wait events)) := clears_log _ p
      refine ⟨hrecord, Known.clear ?_ hrecord⟩
      unfold readyEvents at hevents
      split_ifs at hevents
      exact h.known_events hevents
  | event batch =>
      simp only [Kernel.threadStep] at hstep
      split at hstep
      · cases hstep
        exact ⟨Clears.refl p, by simp [Known, awaited]⟩
      next event rest hbatch =>
        obtain ⟨hclears, hsubset⟩ := clears_handleEvent own io event { batch with rest := rest } p
        rw [Option.some.inj hstep] at hclears hsubset
        refine ⟨hclears, (hknown.subset ?_).clear hclears⟩
        rw [awaited, hbatch]
        exact hsubset
  | removing n state error batch =>
      have hfd : 0 ≤ (p.node n).fd := (hknown n (List.mem_cons_self ..)).2
      have hrecord : Clears own p (p.record (.removeNode n)) := clears_log _ p
      have hremove := hrecord.trans ((h.clear hrecord).clears_removeNode hfd)
      have hrest := (hknown.subset (List.subset_cons_self n _)).clear hremove
      simp only [Kernel.threadStep] at hstep
      split_ifs at hstep
      · cases hstep
        exact ⟨hremove, hrest⟩
      · cases hstep
        exact ⟨hremove, hrest⟩
  | finishing n state error batch =>
      cases hstep
      have hresult : Clears own p ((p.setResult n state error).addResult n) :=
        (clears_setResult n state error p).trans (clears_log _ _)
      exact ⟨hresult, hknown.clear hresult⟩
  | checkPipe batch =>
      simp only [Kernel.threadStep] at hstep
      split_ifs at hstep
      · cases hstep
        have hread : Clears own p ((p.readPipe).2.record (.readPipe p.readPipe.1)) :=
          ⟨fun _ => .inl rfl, fun _ => .inl rfl, rfl, fun _ => rfl⟩
        exact ⟨hread, hknown.clear hread⟩
      · cases hstep
        exact ⟨Clears.refl p, hknown⟩
  | pipeResults pointers stop batch =>
      simp only [Kernel.threadStep] at hstep
      split at hstep
      next n rest =>
        cases hstep
        have hresult : Clears own p (p.addResult n) := clears_log _ p
        exact ⟨hresult, hknown.clear hresult⟩
      · cases hstep
        exact ⟨Clears.refl p, hknown⟩
      · split_ifs at hstep
        · cases hstep
          exact ⟨Clears.refl p, by simp [Known, awaited]⟩
        · cases hstep
          exact ⟨Clears.refl p, hknown⟩
  | timeout batch =>
      cases hstep
      have hlist := h.clears_expireList batch.now p.timeoList
      have hexpire : Clears own p (p.expire batch.now).2 :=
        hlist.trans ((h.clear hlist).clears_expireTree batch.now _)
      exact ⟨hexpire, hknown.clear hexpire⟩
  | timeoutResults expired batch =>
      simp only [Kernel.threadStep] at hstep
      split at hstep
      next n rest =>
        cases hstep
        have hresult : Clears own p ((p.setResult n .error etimedout).addResult n) :=
          (clears_setResult n .error etimedout p).trans (clears_log _ _)
        exact ⟨hresult, hknown.clear hresult⟩
      · cases hstep
        exact ⟨Clears.refl p, hknown⟩
  | returned => cases hstep

theorem Guarded.release (h : Guarded own p) (fd : Nat) :
    Guarded (own.filter (· ≠ fd)) (p.setSlot fd .empty) where
  reserved k := by
    simp only [setSlot]
    by_cases hk : k = fd
    · rw [hk, Function.update_self]
      simp
    · rw [Function.update_of_ne hk, h.reserved]
      simp [hk]
  foreign n hfd hmem := h.foreign n hfd (List.mem_of_mem_filter hmem)
  registered := h.registered

theorem Guarded.clears_stopNode (h : Guarded own p) (n : Nat) : Clears own p (p.stopNode n) := by
  have hresult : Clears own p (p.addResult n) := clears_log _ p
  have hforget := hresult.trans ((h.clear hresult).clears_forget n)
  exact hforget.trans ((clears_setResult n .stopped 0 _).trans (clears_log _ _))

theorem Guarded.drain (h : Guarded own p) (order : RootOrder) :
    Guarded ((own.filter (· ≠ p.pipeRd)).filter (· ≠ p.pipeWr)) (p.drain order) := by
  have hreleased := (h.release p.pipeRd).release p.pipeWr
  have hemptied : Guarded ((own.filter (· ≠ p.pipeRd)).filter (· ≠ p.pipeWr)) p.emptied := by
    apply hreleased.clear
    obtain ⟨more, heq, -⟩ := addResults_eq (p.pipe.take (pollerBufsize / 8))
      { ((({ p with stopped := true } : Poller).setSlot p.pipeRd .empty).setSlot p.pipeWr .empty) with
        pipe := p.pipe.drop (pollerBufsize / 8) }
    simp only [emptied, readPipe]
    simp only [setSlot] at heq ⊢
    rw [heq]
    refine ⟨fun _ => .inl rfl, ?_, rfl, fun _ => rfl⟩
    intro k
    by_cases hk : k = p.pipeRd
    · rw [hk]
      exact .inr (Function.update_self ..)
    · exact .inl (Function.update_of_ne hk ..)
  rw [drain_eq]
  generalize p.emptied = q at hemptied
  induction p.remaining order generalizing q with
  | nil => exact hemptied
  | cons n rest ih => exact ih _ (hemptied.clear (hemptied.clears_stopNode n))

end Poller

open Poller

theorem Machine.guarded_step {own : List Nat} {m m' : Machine} {input : Input}
    (hstep : m.step input = some m') (h : Guarded own m.poller) (hknown : Known m.poller (awaited m.pc)) :
    Guarded own m'.poller ∧ Known m'.poller (awaited m'.pc) := by
  cases input with
  | call call =>
      obtain ⟨p, hcall, rfl⟩ := Option.map_eq_some_iff.1 hstep
      exact ⟨h.call hcall, hknown.call hcall⟩
  | stopMarker =>
      cases hstep
      exact ⟨⟨h.reserved, h.foreign, h.registered⟩, hknown⟩
  | thread io =>
      obtain ⟨⟨pc, p⟩, hthread, rfl⟩ := Option.map_eq_some_iff.1 hstep
      obtain ⟨hclears, hlater⟩ := h.threadStep hknown hthread
      exact ⟨h.clear hclears, hlater⟩

theorem Machine.guarded_run {own : List Nat} {m m' : Machine} {inputs : List Input}
    (hrun : m.run inputs = some m') (h : Guarded own m.poller) (hknown : Known m.poller (awaited m.pc)) :
    Guarded own m'.poller := by
  induction inputs generalizing m with
  | nil =>
      cases hrun
      exact h
  | cons input rest ih =>
      obtain ⟨next, hstep, hrest⟩ := Option.bind_eq_some_iff.1 hrun
      obtain ⟨hguarded, hlater⟩ := guarded_step hstep h hknown
      exact ih hrest hguarded hlater

namespace Poller

theorem guarded_startedPoller (fds : Descriptors) (maxOpenFiles : Nat) :
    Guarded [fds.pfd, fds.timerfd, fds.pipeRd, fds.pipeWr] (startedPoller fds maxOpenFiles) where
  reserved fd := by
    simp only [startedPoller]
    split_ifs with hown
    · exact iff_of_true rfl hown
    · exact iff_of_false (by simp) hown
  foreign n hfd := by
    simp [startedPoller] at hfd
  registered fd n event hn := by
    simp only [startedPoller] at hn
    split_ifs at hn <;> cases hn

/-- A state that the poller can be in, with the descriptors that are its own then: while the thread runs,
after `poller_stop`, and after calls that come later. -/
inductive Reached (fds : Descriptors) (maxOpenFiles : Nat) : List Nat → Poller → Prop where
  | running {inputs : List Input} {m : Machine}
      (hrun : (startedMachine fds maxOpenFiles).run inputs = some m) :
      Reached fds maxOpenFiles [fds.pfd, fds.timerfd, fds.pipeRd, fds.pipeWr] m.poller
  | stopped {own : List Nat} {p : Poller} (before : Reached fds maxOpenFiles own p)
      (order : RootOrder) :
      Reached fds maxOpenFiles ((own.filter (· ≠ p.pipeRd)).filter (· ≠ p.pipeWr)) (p.drain order)
  | called {own : List Nat} {p q : Poller} {call : Call} (before : Reached fds maxOpenFiles own p)
      (hcall : p.call call = some q) : Reached fds maxOpenFiles own q

theorem Reached.guarded {fds : Descriptors} {maxOpenFiles : Nat} {own : List Nat} {p : Poller}
    (h : Reached fds maxOpenFiles own p) : Guarded own p := by
  induction h with
  | running hrun =>
      exact Machine.guarded_run hrun (guarded_startedPoller fds maxOpenFiles)
        (by simp [Known, awaited, startedMachine])
  | stopped _ order ih => exact ih.drain order
  | called _ hcall ih => exact ih.call hcall

/-- What a call returns, and the poller after it. -/
def answer (p : Poller) : Call → Option (Except Errno Unit × Poller)
  | .add data timeout now => p.add data timeout now
  | .del fd => p.del fd
  | .mod data timeout now => p.mod data timeout now
  | .setTimeout fd timeout now => p.setTimeout fd timeout now
  | .addTimer value now => some (.ok (), p.addTimer value now)

theorem call_eq_answer (p : Poller) (call : Call) : p.call call = (p.answer call).map Prod.snd := by
  cases call <;> rfl

/-- The descriptor that a call is for. -/
def target : Call → Option Int
  | .add data _ _ => some data.fd
  | .del fd => some fd
  | .mod data _ _ => some data.fd
  | .setTimeout fd _ _ => some fd
  | .addTimer _ _ => none

/-- The calls that compare the entry with `POLLER_NODE_ERROR`, for an operation that has events. -/
def LooksFirst : Call → Prop
  | .add data _ _ => dataGetEvent data.operation ≠ none
  | .mod data _ _ => dataGetEvent data.operation ≠ none
  | _ => False

/-- The entry of a descriptor exists and is `POLLER_NODE_ERROR`. -/
def IsReserved (p : Poller) (fd : Int) : Prop :=
  p.fdError fd = none ∧ p.nodes fd.toNat = .reserved

def Refuses (p : Poller) (call : Call) : Prop := ∃ error, p.answer call = some (.error error, p)

theorem Refuses.call_eq {p : Poller} {call : Call} (h : p.Refuses call) : p.call call = some p := by
  obtain ⟨error, hanswer⟩ := h
  rw [call_eq_answer, hanswer, Option.map_some]

theorem refuses_iff {p : Poller} {fd : Int} (hreserved : p.IsReserved fd) {call : Call}
    (htarget : target call = some fd) : p.Refuses call ↔ LooksFirst call := by
  obtain ⟨herror, hslot⟩ := hreserved
  cases call with
  | add data timeout now =>
      cases htarget
      cases hevent : dataGetEvent data.operation <;>
        simp [Refuses, answer, Poller.add, LooksFirst, herror, hslot, hevent]
  | del fd =>
      cases htarget
      simp [Refuses, answer, Poller.del, LooksFirst, herror, hslot]
  | mod data timeout now =>
      cases htarget
      cases hevent : dataGetEvent data.operation <;>
        simp [Refuses, answer, Poller.mod, LooksFirst, herror, hslot, hevent]
  | setTimeout fd timeout now =>
      cases htarget
      simp [Refuses, answer, Poller.setTimeout, LooksFirst, herror, hslot]
  | addTimer value now => cases htarget

/-- In every state that the poller can be in, the entries with `POLLER_NODE_ERROR` are those of its own
descriptors, and a call on one of them is refused without effect exactly when it looks for the value. -/
theorem reserved_refused_iff {fds : Descriptors} {maxOpenFiles : Nat} {own : List Nat} {p : Poller}
    (hreached : Reached fds maxOpenFiles own p) (fd : Int) :
    (p.IsReserved fd ↔ p.fdError fd = none ∧ fd.toNat ∈ own)
      ∧ (p.IsReserved fd → ∀ call, target call = some fd → (p.Refuses call ↔ LooksFirst call)) := by
  constructor
  · rw [IsReserved, hreached.guarded.reserved]
  · exact fun hreserved call htarget => refuses_iff hreserved htarget

/-- Two descriptors are added, the first of them has something to read, and it is deleted. -/
def calledRun : List Input :=
  [.call (.add ⟨.read, 7⟩ 10 ⟨0, 0⟩), .call (.add ⟨.read, 8⟩ (-1) ⟨0, 0⟩), .thread (Machine.readyIo []),
    .thread (Machine.readyIo [7]), .thread (Machine.readyIo []), .call (.del 7), .call (.setTimeout 8 20 ⟨1, 0⟩)]

theorem reserved_refused_iff_calledRun :
    ∃ m, (startedMachine Machine.someDescriptors 0).run calledRun = some m ∧ m.poller.timeoList = [1]
      ∧ (m.poller.IsReserved 3 ↔ m.poller.fdError 3 = none ∧ (3 : Int).toNat ∈ [3, 4, 5, 6])
      ∧ (m.poller.IsReserved 3 → ∀ call, target call = some 3 → (m.poller.Refuses call ↔ LooksFirst call))
      ∧ m.poller.call (.add ⟨.read, 3⟩ 10 ⟨2, 0⟩) = some m.poller := by
  have hseen : ((startedMachine Machine.someDescriptors 0).run calledRun).map
      (fun m => (m.poller.timeoList, m.poller.fdError 3)) = some ([1], none) := by decide
  obtain ⟨m, hm, hmseen⟩ := Option.map_eq_some_iff.1 hseen
  obtain ⟨hreserved, hrefused⟩ := reserved_refused_iff (.running hm) 3
  have hadd : m.poller.Refuses (.add ⟨.read, 3⟩ 10 ⟨2, 0⟩) :=
    (hrefused (hreserved.2 ⟨congrArg Prod.snd hmseen, by decide⟩) _ rfl).2 (by simp [LooksFirst, dataGetEvent])
  exact ⟨m, hm, congrArg Prod.fst hmseen, hreserved, hrefused, hadd.call_eq⟩

/-- `poller_del` takes the value for the epoll descriptor for a node. -/
theorem not_refused_delPfd :
    (startedPoller Machine.someDescriptors 0).IsReserved 3
      ∧ ¬ (startedPoller Machine.someDescriptors 0).Refuses (.del 3) := by
  have hreserved : (startedPoller Machine.someDescriptors 0).IsReserved 3 := ⟨by decide, by decide⟩
  refine ⟨hreserved, ?_⟩
  rw [refuses_iff hreserved rfl]
  exact id

end Poller

end WorkflowModel.Kernel
