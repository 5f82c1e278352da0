import WorkflowModel.Proof.ThrdPoolTasks

/-!
# The threads of the thread pool are joined

The threads that have left their loops are a chain: each one joins the one that left before it, and `tid` is the last
one. The joins come in the order in which the threads left, and the owner makes the last of them, so that all threads
have ended when the pool is freed.
-/

namespace WorkflowModel.Kernel.ThrdPool

variable {T : Type*} {s t : State T} {nthreads i : Nat} {leaving ended : List Nat}

def Owner.joinedLast : Owner → Bool
  | .draining _ | .freed _ => true
  | _ => false

/-- The threads that have left, the last one first, up to those that have ended: each one joins the next of the
list. -/
def Linked (threads : List (Thread T)) (ended : List Nat) : List Nat → Prop
  | [] => True
  | i :: rest => threads[i]? = some (.leaving (rest ++ ended).head?) ∧ Linked threads ended rest

structure Chained (s : State T) (leaving ended : List Nat) : Prop where
  nodup : (leaving ++ ended).Nodup
  tid : s.tid = (leaving ++ ended).head?
  linked : Linked s.threads ended leaving
  done : ∀ i ∈ ended, s.threads[i]? = some .ended
  mem : ∀ (i : Nat) (thread : Thread T), s.threads[i]? = some thread → thread.inLoop = false → i ∈ leaving ++ ended
  joined : s.joined = if s.owner.joinedLast = true then ended.reverse else ended.tail.reverse
  last : s.owner.joinedLast = true → leaving = []
  running : s.terminate = false → leaving ++ ended = []

theorem chained_create (nthreads : Nat) : Chained (create nthreads : State T) [] [] where
  nodup := List.nodup_nil
  tid := rfl
  linked := trivial
  done := by simp
  mem := by simp [create]
  joined := rfl
  last := fun _ => rfl
  running := fun _ => rfl

def SameLeft (s t : State T) : Prop :=
  ∀ (i : Nat) (thread : Thread T), thread.inLoop = false → (t.threads[i]? = some thread ↔ s.threads[i]? = some thread)

theorem SameLeft.linked (h : SameLeft s t) (hlinked : Linked s.threads ended leaving) :
    Linked t.threads ended leaving := by
  induction leaving with
  | nil => trivial
  | cons i rest ih => exact ⟨(h i _ rfl).mpr hlinked.1, ih hlinked.2⟩

theorem sameLeft_of_set {a b : Thread T} (hi : s.threads[i]? = some a) (ha : a.inLoop = true) (hb : b.inLoop = true)
    (hthreads : t.threads = s.threads.set i b) : SameLeft s t := by
  intro j thread hthread
  rw [hthreads]
  by_cases hij : i = j
  · subst hij
    have hlt : i < s.threads.length := (List.getElem?_eq_some_iff.mp hi).1
    rw [List.getElem?_set_self hlt, hi]
    constructor
    · intro heq
      rw [← Option.some.inj heq, hb] at hthread
      cases hthread
    · intro heq
      rw [← Option.some.inj heq, ha] at hthread
      cases hthread
  · rw [List.getElem?_set_ne hij]

theorem sameLeft_of_append {b : Thread T} (hb : b.inLoop = true) (hthreads : t.threads = s.threads ++ [b]) :
    SameLeft s t := by
  intro j thread hthread
  rw [hthreads, List.getElem?_append]
  split
  next => rfl
  next hge =>
    rw [List.getElem?_eq_none (Nat.le_of_not_lt hge)]
    refine iff_of_false ?_ (by simp)
    intro heq
    have hmem := List.mem_of_getElem? heq
    rw [List.mem_singleton.mp hmem, hb] at hthread
    cases hthread

theorem sameLeft_of_wake (hthreads : t.threads = s.threads.map Thread.wake) : SameLeft s t := by
  intro j thread hthread
  rw [hthreads, List.getElem?_map]
  cases s.threads[j]? with
  | none => simp
  | some a => cases a <;> cases thread <;> simp_all [Thread.wake, Thread.inLoop]

theorem Chained.of_sameLeft (h : Chained s leaving ended) (hleft : SameLeft s t) (htid : t.tid = s.tid)
    (hjoined : t.joined = s.joined) (hlast : t.owner.joinedLast = s.owner.joinedLast)
    (hterminate : t.terminate = false → s.terminate = false) : Chained t leaving ended where
  nodup := h.nodup
  tid := htid.trans h.tid
  linked := hleft.linked h.linked
  done := fun i hi => (hleft i _ rfl).mpr (h.done i hi)
  mem := fun i thread hi hthread => h.mem i thread ((hleft i thread hthread).mp hi) hthread
  joined := by rw [hjoined, hlast, h.joined]
  last := by rw [hlast]; exact h.last
  running := fun hterm => h.running (hterminate hterm)

theorem Linked.getElem? (h : Linked s.threads ended leaving) (hi : i ∈ leaving) :
    ∃ tid, s.threads[i]? = some (.leaving tid) := by
  induction leaving with
  | nil => cases hi
  | cons j rest ih =>
      obtain rfl | hrest := List.mem_cons.mp hi
      · exact ⟨_, h.1⟩
      · exact ih h.2 hrest

theorem Chained.not_mem (h : Chained s leaving ended) {thread : Thread T} (hi : s.threads[i]? = some thread)
    (hinLoop : thread.inLoop = true) : i ∉ leaving ++ ended := by
  intro hmem
  obtain hleaving | hended := List.mem_append.mp hmem
  · obtain ⟨tid, htid⟩ := h.linked.getElem? hleaving
    rw [hi] at htid
    rw [Option.some.inj htid] at hinLoop
    cases hinLoop
  · have hend := h.done i hended
    rw [hi] at hend
    rw [Option.some.inj hend] at hinLoop
    cases hinLoop

theorem linked_set {threads : List (Thread T)} {thread : Thread T} (h : Linked threads ended leaving)
    (hi : i ∉ leaving) : Linked (threads.set i thread) ended leaving := by
  induction leaving with
  | nil => trivial
  | cons j rest ih =>
      have hij : i ≠ j := fun hij => hi (hij ▸ List.mem_cons_self)
      exact ⟨by rw [List.getElem?_set_ne hij]; exact h.1, ih h.2 fun hrest => hi (List.mem_cons_of_mem j hrest)⟩

/-- A thread leaves its loop, and finds in `tid` the one that left before. -/
theorem Chained.exchangeTid (h : Chained s leaving ended) (hi : s.threads[i]? = some .ready)
    (hlast : s.owner.joinedLast = false) (hterminate : s.terminate = true) :
    Chained (s.exchangeTid i) (i :: leaving) ended := by
  have hnot := h.not_mem hi rfl
  have hlt : i < s.threads.length := (List.getElem?_eq_some_iff.mp hi).1
  have hthreads : (s.exchangeTid i).threads = s.threads.set i (.leaving s.tid) := rfl
  constructor
  · exact List.nodup_cons.mpr ⟨hnot, h.nodup⟩
  · rfl
  · refine ⟨?_, ?_⟩
    · rw [hthreads, List.getElem?_set_self hlt, h.tid]
    · rw [hthreads]
      exact linked_set h.linked fun hmem => hnot (List.mem_append_left _ hmem)
  · intro j hj
    have hij : i ≠ j := fun hij => hnot (List.mem_append_right _ (hij ▸ hj))
    rw [hthreads, List.getElem?_set_ne hij]
    exact h.done j hj
  · intro j thread hj hthread
    by_cases hij : i = j
    · exact hij ▸ List.mem_cons_self
    · rw [hthreads, List.getElem?_set_ne hij] at hj
      exact List.mem_cons_of_mem i (h.mem j thread hj hthread)
  · exact h.joined
  · intro hjoined
    exact absurd (hjoined.symm.trans hlast) (by decide)
  · intro hterm
    exact absurd (hterm.symm.trans hterminate) (by decide)

theorem Chained.leave (h : Chained s leaving ended) (hi : s.threads[i]? = some .ready)
    (hlast : s.owner.joinedLast = false) (hterminate : s.terminate = true) :
    Chained (s.leave i) (i :: leaving) ended := by
  have hleft := h.exchangeTid hi hlast hterminate
  obtain ⟨heq, -⟩ | ⟨purpose, hasleep, heq⟩ := leave_cases s i
  · rw [heq]
    exact hleft
  · rw [heq]
    refine hleft.of_sameLeft (fun _ _ _ => .rfl) rfl rfl ?_ id
    exact hlast.symm

theorem linked_of_append {threads : List (Thread T)} {before : List Nat}
    (h : Linked threads ended (before ++ leaving)) : Linked threads ended leaving := by
  induction before with
  | nil => exact h
  | cons j before ih => exact ih h.2

/-- Only the first thread that left, of those that have not ended, has found one that has ended. -/
theorem Chained.split (h : Chained s leaving ended) {tid : Option Nat} (hi : s.threads[i]? = some (.leaving tid))
    (htid : ∀ j, tid = some j → s.threads[j]? = some .ended) :
    ∃ before, leaving = before ++ [i] ∧ tid = ended.head? := by
  have hmem : i ∈ leaving := by
    obtain hleaving | hended := List.mem_append.mp (h.mem i _ hi rfl)
    · exact hleaving
    · rw [h.done i hended] at hi
      cases hi
  obtain ⟨before, rest, rfl⟩ := List.append_of_mem hmem
  have hlinked := linked_of_append h.linked
  have hfound : tid = (rest ++ ended).head? := by
    have hhere := hlinked.1
    rw [hi] at hhere
    exact Thread.leaving.inj (Option.some.inj hhere)
  cases rest with
  | nil => exact ⟨before, rfl, hfound⟩
  | cons j rest =>
      have hended := htid j hfound
      rw [hlinked.2.1] at hended
      cases hended

theorem linked_concat {threads : List (Thread T)} (h : Linked threads ended (leaving ++ [i])) :
    Linked threads (i :: ended) leaving := by
  induction leaving with
  | nil => trivial
  | cons j rest ih =>
      obtain ⟨hj, hrest⟩ := h
      have happend : rest ++ [i] ++ ended = rest ++ i :: ended := by simp
      exact ⟨happend ▸ hj, ih hrest⟩

/-- The thread that joined the one before it, if there was one, ends. -/
theorem Chained.endThread (h : Chained s leaving ended) {tid : Option Nat} (hi : s.threads[i]? = some (.leaving tid))
    (htid : ∀ j, tid = some j → s.threads[j]? = some .ended) :
    ∃ leaving ended, Chained { s.setThread i .ended with joined := s.joined ++ tid.toList } leaving ended := by
  obtain ⟨before, rfl, htid⟩ := h.split hi htid
  have hlt : i < s.threads.length := (List.getElem?_eq_some_iff.mp hi).1
  have hthreads : (s.setThread i .ended).threads = s.threads.set i .ended := rfl
  have happend : before ++ i :: ended = before ++ [i] ++ ended := by simp
  have hnodup := happend ▸ h.nodup
  have hnot : i ∉ before := by
    intro hmem
    exact (List.nodup_append.mp hnodup).2.2 i hmem i List.mem_cons_self rfl
  have hlast : s.owner.joinedLast = false := by
    by_contra hlast
    have hnil := h.last (by simpa using hlast)
    simp at hnil
  refine ⟨before, i :: ended, hnodup, ?_, ?_, ?_, ?_, ?_, ?_, ?_⟩
  · rw [happend]
    exact h.tid
  · exact linked_set (linked_concat h.linked) hnot
  · intro j hj
    change (s.threads.set i .ended)[j]? = _
    by_cases hij : i = j
    · subst hij
      exact List.getElem?_set_self hlt
    · rw [List.getElem?_set_ne hij]
      obtain rfl | hended := List.mem_cons.mp hj
      · exact absurd rfl hij
      · exact h.done j hended
  · intro j thread hj hthread
    change (s.threads.set i .ended)[j]? = _ at hj
    rw [happend]
    by_cases hij : i = j
    · simp [hij]
    · rw [List.getElem?_set_ne hij] at hj
      exact h.mem j thread hj hthread
  · change s.joined ++ tid.toList = if s.owner.joinedLast = true then _ else (i :: ended).tail.reverse
    rw [h.joined, hlast, if_neg (by decide), if_neg (by decide), htid]
    cases ended <;> simp
  · intro hjoined
    exact absurd (hjoined.symm.trans hlast) (by decide)
  · intro hterm
    have hnil := h.running hterm
    simp at hnil

theorem Owner.alone_of_joinedLast {owner : Owner} (h : owner.joinedLast = true) : owner.alone = true := by
  cases owner <;> first | rfl | cases h

theorem Counted.joinedLast_eq_false (h : Counted s) {thread : Thread T} (hi : s.threads[i]? = some thread)
    (hinLoop : thread.inLoop = true) : s.owner.joinedLast = false := by
  by_contra hlast
  have halone := Owner.alone_of_joinedLast (by simpa using hlast)
  exact absurd (halone.symm.trans (h.not_alone hi hinLoop)) (by decide)

theorem Chained.signalled (h : Chained s leaving ended) (ht : Signalled s t) : Chained t leaving ended := by
  cases ht with
  | woken pick hpick => exact h.of_sameLeft (sameLeft_of_set hpick rfl rfl rfl) rfl rfl rfl id
  | lost hnone => exact h

theorem Chained.increase (h : Chained s leaving ended) (ok : Bool) : Chained (s.increase ok) leaving ended := by
  cases ok
  · exact h
  · exact h.of_sameLeft (sameLeft_of_append (b := .ready) rfl rfl) rfl rfl rfl id

theorem Chained.of_owner {owner : Owner} (h : Chained s leaving ended)
    (hlast : owner.joinedLast = s.owner.joinedLast) : Chained { s with owner := owner } leaving ended :=
  h.of_sameLeft (fun _ _ _ => .rfl) rfl rfl hlast id

theorem Chained.createThreads {left : Nat} (h : Chained s leaving ended) (howner : s.owner = .creating left)
    (ok : Bool) : Chained (s.createThreads left ok) leaving ended := by
  have hlast : s.owner.joinedLast = false := by rw [howner]; rfl
  unfold State.createThreads
  split
  next => exact h.of_owner hlast.symm
  next =>
    split
    next => exact (h.increase true).of_owner hlast.symm
    next => exact h.of_owner hlast.symm

theorem Chained.awaitThreads {purpose : Purpose} (h : Chained s leaving ended) (hlast : s.owner.joinedLast = false) :
    Chained (s.awaitThreads purpose) leaving ended := by
  unfold State.awaitThreads
  split <;> exact h.of_owner hlast.symm

theorem Chained.setTerminate {purpose : Purpose} (h : Chained s leaving ended) (hlast : s.owner.joinedLast = false) :
    Chained (s.setTerminate purpose) leaving ended := by
  have hwoken : Chained { s with terminate := true, threads := s.threads.map Thread.wake } leaving ended :=
    h.of_sameLeft (sameLeft_of_wake rfl) rfl rfl rfl (by simp)
  exact hwoken.awaitThreads hlast

/-- The owner joins the last thread, if there is one. -/
theorem Chained.joinLast {tid : Option Nat} (h : Chained s leaving ended) (purpose : Purpose)
    (hlast : s.owner.joinedLast = false) (htid : s.tid = tid)
    (hended : ∀ j, tid = some j → s.threads[j]? = some .ended) :
    Chained ({ s with joined := s.joined ++ tid.toList }.afterTerminate purpose) leaving ended := by
  have hleaving : leaving = [] := by
    cases leaving with
    | nil => rfl
    | cons j rest =>
        have hj := hended j (htid.symm.trans h.tid)
        rw [h.linked.1] at hj
        cases hj
  subst hleaving
  have hjoined := h.joined
  rw [hlast, if_neg (by decide)] at hjoined
  have hafter : ∀ t : State T, t.threads = s.threads → t.tid = s.tid → t.terminate = s.terminate →
      t.joined = s.joined ++ tid.toList → t.owner.joinedLast = true → Chained t [] ended := by
    intro t hthreads htid' hterminate hj hl
    constructor
    · exact h.nodup
    · exact htid'.trans h.tid
    · trivial
    · rw [hthreads]
      exact h.done
    · rw [hthreads]
      exact h.mem
    · rw [hj, hl, if_pos rfl, hjoined, ← htid, h.tid]
      cases ended <;> simp
    · exact fun _ => rfl
    · rw [hterminate]
      exact h.running
  cases purpose <;> exact hafter _ rfl rfl rfl rfl rfl

theorem Chained.effect {turn : Turn T} (h : Chained s leaving ended) (hc : Counted s) (he : Effect s turn t) :
    ∃ leaving ended, Chained t leaving ended := by
  cases he with
  | schedule task howner => exact ⟨_, _, h.of_sameLeft (fun _ _ _ => .rfl) rfl rfl rfl id⟩
  | signal pick t hcallers ht =>
      have hnew : Chained { s with callers := s.callers - 1 } leaving ended :=
        h.of_sameLeft (fun _ _ _ => .rfl) rfl rfl rfl id
      exact ⟨_, _, hnew.signalled ht⟩
  | increase ok howner => exact ⟨_, _, h.increase ok⟩
  | leave i hi hterminate => exact ⟨_, _, h.leave hi (hc.joinedLast_eq_false hi rfl) hterminate⟩
  | sleep i hi hterminate hqueue => exact ⟨_, _, h.of_sameLeft (sameLeft_of_set hi rfl rfl rfl) rfl rfl rfl id⟩
  | take i task rest hi hterminate hqueue =>
      exact ⟨_, _, h.of_sameLeft (sameLeft_of_set (b := .running task) hi rfl rfl rfl) rfl rfl rfl id⟩
  | spuriousWake i hi => exact ⟨_, _, h.of_sameLeft (sameLeft_of_set hi rfl rfl rfl) rfl rfl rfl id⟩
  | taskSchedule i task outer hi =>
      exact ⟨_, _, h.of_sameLeft (sameLeft_of_set (b := .signalling outer) hi rfl rfl rfl) rfl rfl rfl id⟩
  | taskSignal i pick outer t hi ht =>
      have hnew : Chained (s.setThread i (.running outer)) leaving ended :=
        h.of_sameLeft (sameLeft_of_set hi rfl rfl rfl) rfl rfl rfl id
      exact ⟨_, _, hnew.signalled ht⟩
  | taskIncrease i ok outer hi => exact ⟨_, _, h.increase ok⟩
  | finish i task hi =>
      exact ⟨_, _, h.of_sameLeft (sameLeft_of_set (b := .ready) hi rfl rfl rfl) rfl rfl rfl id⟩
  | endFirst i hi =>
      obtain ⟨leaving, ended, hnew⟩ := h.endThread hi (by simp)
      rw [Option.toList_none, List.append_nil] at hnew
      exact ⟨leaving, ended, hnew⟩
  | endNext i tid hi htid => exact h.endThread hi (by rintro j ⟨⟩; exact htid)
  | createThreads left ok howner => exact ⟨_, _, h.createThreads howner ok⟩
  | destroy pending howner hcallers => exact ⟨_, _, h.of_owner (by rw [howner]; rfl)⟩
  | setTerminate purpose howner => exact ⟨_, _, h.setTerminate (by rw [howner]; rfl)⟩
  | ownerSpuriousWake purpose howner => exact ⟨_, _, h.of_owner (by rw [howner]; rfl)⟩
  | ownerSection purpose howner => exact ⟨_, _, h.awaitThreads (by rw [howner]; rfl)⟩
  | joinNone purpose howner htid =>
      have hnew := h.joinLast purpose (by rw [howner]; rfl) htid (by simp)
      rw [Option.toList_none, List.append_nil] at hnew
      exact ⟨_, _, hnew⟩
  | joinLast purpose tid howner htid hended =>
      exact ⟨_, _, h.joinLast purpose (by rw [howner]; rfl) htid (by rintro j ⟨⟩; exact hended)⟩
  | drain pending howner =>
      refine ⟨leaving, ended, ?_⟩
      unfold State.drain
      split
      next => exact h.of_owner (by rw [howner]; rfl)
      next => exact h.of_sameLeft (fun _ _ _ => .rfl) rfl rfl rfl id

theorem chained_of_reached (h : Reached nthreads s) : ∃ leaving ended, Chained s leaving ended := by
  refine (Reached.induct (P := fun s => Counted s ∧ ∃ leaving ended, Chained s leaving ended)
    ⟨counted_create nthreads, [], [], chained_create nthreads⟩ ?_ h).2
  rintro s turn t ⟨hc, leaving, ended, hs⟩ he
  exact ⟨hc.effect he, hs.effect hc he⟩

/-- When the last join has returned, all threads of the pool have ended, and each of them was joined once. -/
theorem joined_of_reached (h : Reached nthreads s) (hlast : s.owner.joinedLast = true) :
    (∀ thread ∈ s.threads, thread = .ended) ∧ s.joined.Perm (List.range s.threads.length) := by
  obtain ⟨hc, -⟩ := counted_and_conserved h
  obtain ⟨leaving, ended, h⟩ := chained_of_reached h
  obtain rfl := h.last hlast
  have hzero := hc.alone (Owner.alone_of_joinedLast hlast)
  rw [hc.nthreads, List.countP_eq_zero] at hzero
  have hmem : ∀ i < s.threads.length, i ∈ ended := by
    intro i hi
    have hget : s.threads[i]? = some s.threads[i] := List.getElem?_eq_getElem hi
    exact h.mem i _ hget (by simpa using hzero s.threads[i] (List.getElem_mem hi))
  constructor
  · intro thread hthread
    obtain ⟨i, hi, rfl⟩ := List.mem_iff_getElem.mp hthread
    have hget := h.done i (hmem i hi)
    rw [List.getElem?_eq_getElem hi] at hget
    exact Option.some.inj hget
  · rw [h.joined, hlast, if_pos rfl]
    refine (List.reverse_perm ended).trans ((List.perm_ext_iff_of_nodup h.nodup List.nodup_range).mpr fun i => ?_)
    rw [List.mem_range]
    exact ⟨fun hi => (List.getElem?_eq_some_iff.mp (h.done i hi)).1, hmem i⟩

theorem joined_of_reached_oneDrained : oneDrained.joined.Perm [0] :=
  (joined_of_reached reached_oneDrained rfl).2

/-- Nobody comes back to a pool that has been freed. -/
theorem step_eq_none_of_freed {purpose : Purpose} (h : Reached nthreads s) (hfreed : s.owner = .freed purpose)
    (turn : Turn T) : step s turn = none := by
  have hended := (joined_of_reached h (by rw [hfreed]; rfl)).1
  have hcallers := (counted_and_conserved h).1.callers (by rw [hfreed]; simp)
  have hthread : ∀ {i : Nat} {thread : Thread T}, s.threads[i]? = some thread → thread = .ended :=
    fun hi => hended _ (List.mem_of_getElem? hi)
  have howner' : ∀ {owner : Owner}, s.owner = owner → owner = .freed purpose := fun howner => howner.symm.trans hfreed
  refine Option.eq_none_iff_forall_ne_some.mpr fun t hstep => ?_
  cases effect_of_step hstep with
  | schedule task howner => cases howner' howner
  | signal pick t hpos ht => omega
  | increase ok howner => cases howner' howner
  | leave i hi hterminate => cases hthread hi
  | sleep i hi hterminate hqueue => cases hthread hi
  | take i task rest hi hterminate hqueue => cases hthread hi
  | spuriousWake i hi => cases hthread hi
  | taskSchedule i task outer hi => cases hthread hi
  | taskSignal i pick outer t hi ht => cases hthread hi
  | taskIncrease i ok outer hi => cases hthread hi
  | finish i task hi => cases hthread hi
  | endFirst i hi => cases hthread hi
  | endNext i tid hi htid => cases hthread hi
  | createThreads left ok howner => cases howner' howner
  | destroy pending howner hnone => cases howner' howner
  | setTerminate purpose howner => cases howner' howner
  | ownerSpuriousWake purpose howner => cases howner' howner
  | ownerSection purpose howner => cases howner' howner
  | joinNone purpose howner htid => cases howner' howner
  | joinLast purpose tid howner htid hlast => cases howner' howner
  | drain pending howner => cases howner' howner

theorem step_eq_none_of_oneDrained : step oneDrained (.spuriousWake 0) = none :=
  step_eq_none_of_freed reached_oneDrained rfl _

/-- As many threads as `thrdpool_create` was asked for, less those that it has still to create. -/
structure Staffed (nthreads : Nat) (s : State T) : Prop where
  creating : ∀ left, s.owner = .creating left → s.threads.length + left = nthreads
  used : s.owner.unused = false → nthreads ≤ s.threads.length

theorem Staffed.of_length (h : Staffed nthreads s) (hlength : t.threads.length = s.threads.length)
    (hcreating : ∀ left, t.owner = .creating left → s.owner = .creating left)
    (hunused : t.owner.unused = false → s.owner.unused = false) : Staffed nthreads t :=
  ⟨fun left howner => hlength ▸ h.creating left (hcreating left howner), fun hu => hlength ▸ h.used (hunused hu)⟩

theorem Signalled.length (h : Signalled s t) : t.threads.length = s.threads.length := by
  cases h with
  | woken pick hpick => exact List.length_set
  | lost hnone => rfl

theorem Staffed.increase (h : Staffed nthreads s) (hunused : s.owner.unused = false) (ok : Bool) :
    Staffed nthreads (s.increase ok) := by
  cases ok with
  | false => exact h
  | true =>
      refine ⟨fun left howner => ?_, fun _ => ?_⟩
      · rw [show s.owner = .creating left from howner] at hunused
        cases hunused
      · have hle := h.used hunused
        simp only [State.increase, State.createThread, ↓reduceIte, List.length_append, List.length_singleton]
        omega

theorem Staffed.createThreads {left : Nat} (h : Staffed nthreads s) (howner : s.owner = .creating left) (ok : Bool) :
    Staffed nthreads (s.createThreads left ok) := by
  have hlength := h.creating left howner
  unfold State.createThreads
  split
  next => exact ⟨by simp, fun _ => by simp only; omega⟩
  next =>
    split
    next =>
      refine ⟨fun rest hrest => ?_, by simp [Owner.unused]⟩
      have hrest : left - 1 = rest := by simpa using hrest
      simp only [State.createThread, List.length_append, List.length_singleton]
      omega
    next => exact ⟨by simp, by simp [Owner.unused]⟩

theorem Staffed.awaitThreads {purpose : Purpose} (h : Staffed nthreads s)
    (hunused : purpose ≠ .abandon → s.owner.unused = false) : Staffed nthreads (s.awaitThreads purpose) := by
  unfold State.awaitThreads
  split <;> refine h.of_length rfl (by simp) fun hu => hunused ?_ <;> rintro rfl <;> cases hu

theorem Staffed.afterTerminate {purpose : Purpose} (h : Staffed nthreads s) (howner : s.owner = .joining purpose) :
    Staffed nthreads (s.afterTerminate purpose) := by
  cases purpose with
  | abandon => exact h.of_length rfl (by simp [State.afterTerminate]) (by simp [State.afterTerminate, Owner.unused])
  | destroy pending =>
      exact h.of_length rfl (by simp [State.afterTerminate]) (by rw [howner]; exact fun _ => rfl)

theorem Staffed.effect {turn : Turn T} (h : Staffed nthreads s) (hs : Conserved s) (he : Effect s turn t) :
    Staffed nthreads t := by
  cases he with
  | schedule task howner => exact h.of_length rfl (fun _ => id) id
  | signal pick t hcallers ht =>
      exact h.of_length ht.length (by rw [ht.same.2.2.1]; exact fun _ => id) (by rw [ht.same.2.2.1]; exact id)
  | increase ok howner => exact h.increase (by rw [howner]; rfl) ok
  | leave i hi hterminate =>
      obtain ⟨heq, -⟩ | ⟨purpose, hasleep, heq⟩ := leave_cases s i
      · rw [heq]
        exact h.of_length List.length_set (fun _ => id) id
      · rw [heq]
        refine h.of_length List.length_set (by simp) ?_
        rw [hasleep]
        cases purpose <;> exact id
  | sleep i hi hterminate hqueue => exact h.of_length List.length_set (fun _ => id) id
  | take i task rest hi hterminate hqueue => exact h.of_length List.length_set (fun _ => id) id
  | spuriousWake i hi => exact h.of_length List.length_set (fun _ => id) id
  | taskSchedule i task outer hi => exact h.of_length List.length_set (fun _ => id) id
  | taskSignal i pick outer t hi ht =>
      refine h.of_length (ht.length.trans List.length_set) ?_ ?_
      · rw [ht.same.2.2.1]
        exact fun _ => id
      · rw [ht.same.2.2.1]
        exact id
  | taskIncrease i ok outer hi => exact h.increase (hs.not_unused hi rfl) ok
  | finish i task hi => exact h.of_length List.length_set (fun _ => id) id
  | endFirst i hi => exact h.of_length List.length_set (fun _ => id) id
  | endNext i tid hi htid => exact h.of_length List.length_set (fun _ => id) id
  | createThreads left ok howner => exact h.createThreads howner ok
  | destroy pending howner hcallers => exact h.of_length rfl (by simp) (by rw [howner]; exact fun _ => rfl)
  | setTerminate purpose howner =>
      have hwoken : Staffed nthreads { s with terminate := true, threads := s.threads.map Thread.wake } :=
        h.of_length (List.length_map _) (fun _ => id) id
      refine hwoken.awaitThreads fun hne => ?_
      simp only [howner]
      cases purpose with
      | abandon => exact absurd rfl hne
      | destroy pending => rfl
  | ownerSpuriousWake purpose howner =>
      refine h.of_length rfl (by simp) ?_
      rw [howner]
      cases purpose <;> exact id
  | ownerSection purpose howner =>
      refine h.awaitThreads fun hne => ?_
      rw [howner]
      cases purpose with
      | abandon => exact absurd rfl hne
      | destroy pending => rfl
  | joinNone purpose howner htid => exact h.afterTerminate howner
  | joinLast purpose tid howner htid hlast =>
      have hnew : Staffed nthreads { s with joined := s.joined ++ [tid] } := h.of_length rfl (fun _ => id) id
      exact hnew.afterTerminate howner
  | drain pending howner =>
      unfold State.drain
      split
      next => exact h.of_length rfl (by simp) (by rw [howner]; exact fun _ => rfl)
      next => exact h.of_length rfl (fun _ => id) id

theorem staffed_of_reached (h : Reached nthreads s) : Staffed nthreads s := by
  refine (Reached.induct (P := fun s => (Counted s ∧ Conserved s) ∧ Staffed nthreads s)
    ⟨⟨counted_create nthreads, conserved_create nthreads⟩, ?_⟩ ?_ h).2
  · exact ⟨fun left howner => by simpa [create] using (Owner.creating.inj howner).symm, by simp [create, Owner.unused]⟩
  · rintro s turn t ⟨⟨hc, hs⟩, hn⟩ he
    exact ⟨⟨hc.effect he, hs.effect hc he⟩, hn.effect hs he⟩

/-- A pool that `thrdpool_create` has returned has all the threads it was asked for, and they are in their loops. If
it has returned `NULL`, no task was ever scheduled, and every thread that it had created has ended and was joined. -/
theorem create_of_reached (h : Reached nthreads s) :
    (s.owner = .created → nthreads ≤ s.nthreads ∧ ∀ thread ∈ s.threads, thread.inLoop = true)
      ∧ (s.owner = .freed .abandon → s.scheduled = [] ∧ (∀ thread ∈ s.threads, thread = .ended)
        ∧ s.joined.Perm (List.range s.threads.length)) := by
  obtain ⟨hc, hs⟩ := counted_and_conserved h
  constructor
  · intro howner
    obtain ⟨leaving, ended, hchain⟩ := chained_of_reached h
    have hnone := hchain.running (by rw [hc.terminate, howner]; rfl)
    have hall : ∀ thread ∈ s.threads, thread.inLoop = true := by
      intro thread hthread
      obtain ⟨i, hi⟩ := List.getElem?_of_mem hthread
      by_contra hout
      have hmem := hchain.mem i thread hi (by simpa using hout)
      rw [hnone] at hmem
      cases hmem
    refine ⟨?_, hall⟩
    rw [hc.nthreads, List.countP_eq_length.mpr hall]
    exact (staffed_of_reached h).used (by rw [howner]; rfl)
  · intro howner
    have hjoined := joined_of_reached h (by rw [howner]; rfl)
    exact ⟨hs.unused (by rw [howner]; rfl), hjoined⟩

def oneAbandoned : State Nat :=
  { create 3 with tid := some 0, terminate := true, threads := [.ended], owner := .freed .abandon, joined := [0] }

theorem create_of_reached_oneAbandoned : oneAbandoned.scheduled = [] ∧ oneAbandoned.joined.Perm [0] := by
  have hreached : Reached 3 oneAbandoned :=
    reached_of_turns [.createThreads true, .createThreads false, .setTerminate, .routineSection 0, .threadJoin 0,
      .ownerSection, .ownerJoin] rfl
  have hfreed := (create_of_reached hreached).2 rfl
  exact ⟨hfreed.1, hfreed.2.2⟩

end WorkflowModel.Kernel.ThrdPool
