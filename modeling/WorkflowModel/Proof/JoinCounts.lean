import Mathlib.Algebra.BigOperators.Intervals
import Mathlib.Algebra.Order.BigOperators.Group.Finset
import WorkflowModel.Proof.JoinTree

/-!
# Counting the calls of a task

Every task that is dispatched was called for by exactly one other call: the loop of its parallel task, or the end
of the task before it. So each kind of call is counted against the one that it comes from, and no count can
pass one. A parallel task is finished by the decrement that brings `nleft` to zero, and the decrements are counted
against the ends of the last tasks.

A ledger counts what is going on and what has happened. A step takes some things out of the ledger and puts others
in, and the balance is kept.
-/

namespace WorkflowModel.Kernel.SubTask

open Finset

inductive Token where
  | call (t : Nat)
  | loop (p i : Nat)
  | finish (t : Nat)
  | handOver (t : Nat)
  | leave (q : Nat × Nat)
  | pending (t : Nat)
  | dispatched (t : Nat)
  | done (t : Nat)
  | left (q : Nat × Nat)
  deriving DecidableEq

/-- The loop of `p` before the position `j` will come to every position `i` behind it; everything else counts as
itself. -/
def Token.counts : Token → Token → Bool
  | .loop p i, .loop p' j => p' = p ∧ j ≤ i
  | k, k' => k' = k

structure Ledger where
  tally : Token → Nat
  nleft : Nat → Nat

structure Ledger.Balanced (tree : TaskTree) (b : Ledger) : Prop where
  root : b.tally (.call tree.root) + b.tally (.dispatched tree.root) = 1
  child : ∀ (p i t : Nat) (l : List Nat), tree.subtasks p = some l → l[i]? = some t →
    b.tally (.loop p i) + b.tally (.call t) + b.tally (.dispatched t) = b.tally (.dispatched p)
  next : ∀ t u, tree.next t = some u →
    b.tally (.handOver u) + b.tally (.call u) + b.tally (.dispatched u) = b.tally (.done t)
  leaf : ∀ t, tree.subtasks t = none →
    b.tally (.pending t) + b.tally (.finish t) + b.tally (.done t) = b.tally (.dispatched t)
  parallel : ∀ p l, tree.subtasks p = some l →
    b.tally (.finish p) + b.tally (.done p) = if 0 < b.tally (.dispatched p) ∧ b.nleft p = 0 then 1 else 0
  last : ∀ q t, tree.Chain q t → tree.InTree q.1 → tree.next t = none →
    b.tally (.leave q) + b.tally (.left q) = b.tally (.done t)
  nleft : ∀ p l, tree.InTree p → tree.subtasks p = some l → 0 < b.tally (.dispatched p) →
    b.nleft p + ∑ i ∈ range l.length, b.tally (.left (p, i)) = l.length

namespace Ledger

variable {tree : TaskTree} {b b' : Ledger} {t u p i : Nat} {l : List Nat} {q : Nat × Nat}

theorem Balanced.done_le (h : Balanced tree b) (t : Nat) : b.tally (.done t) ≤ b.tally (.dispatched t) := by
  rcases hsub : tree.subtasks t with _ | l
  · have := h.leaf t hsub
    omega
  · have := h.parallel t l hsub
    split at this <;> omega

theorem Balanced.call_le_one (h : Balanced tree b) (ht : tree.InTree t) :
    b.tally (.call t) + b.tally (.dispatched t) ≤ 1 := by
  induction ht with
  | root =>
      have := h.root
      omega
  | @child p t l hp hl ht ih =>
      obtain ⟨i, hi⟩ := List.mem_iff_getElem?.1 ht
      have := h.child p i t l hl hi
      omega
  | @next t u ht hnext ih =>
      have := h.next t u hnext
      have := h.done_le t
      omega

/-- The tasks of a chain are dispatched after the first of them, and that one after the parallel task. -/
theorem Balanced.call_le_of_chain (h : Balanced tree b) {first : Nat} (hl : tree.subtasks q.1 = some l)
    (hfirst : l[q.2]? = some first) (hchain : tree.Chain q t) :
    b.tally (.call t) + b.tally (.dispatched t) ≤ b.tally (.call first) + b.tally (.dispatched first)
      ∧ b.tally (.call t) + b.tally (.dispatched t) ≤ b.tally (.dispatched q.1) := by
  obtain ⟨l', first', hl', hfirst', hleads⟩ := hchain
  rw [hl] at hl'
  cases hl'
  rw [hfirst] at hfirst'
  cases hfirst'
  induction hleads with
  | refl =>
      have := h.child q.1 q.2 first l hl hfirst
      omega
  | @tail t u _ hnext ih =>
      have := h.next t u hnext
      have := h.done_le t
      omega

theorem Balanced.left_le (h : Balanced tree b) (hp : tree.InTree p) (hl : tree.subtasks p = some l)
    (hi : i < l.length) : b.tally (.leave (p, i)) + b.tally (.left (p, i)) ≤ b.tally (.dispatched p) := by
  obtain ⟨t, hleads, hlast⟩ := tree.exists_last l[i]
  have hfirst : l[i]? = some l[i] := List.getElem?_eq_getElem hi
  have hchain : tree.Chain (p, i) t := ⟨l, l[i], hl, hfirst, hleads⟩
  have := h.last (p, i) t hchain hp hlast
  have := h.done_le t
  have := (h.call_le_of_chain (q := (p, i)) hl hfirst hchain).2
  simp only at this
  omega

theorem Balanced.done_le_of_leads (h : Balanced tree b) (hleads : Relation.ReflTransGen tree.Leads t u) :
    b.tally (.done u) ≤ b.tally (.done t) := by
  induction hleads with
  | refl => exact le_rfl
  | @tail u v _ hnext ih =>
      have := h.next u v hnext
      have := h.done_le v
      omega

/-- When a parallel task is about to be done, all its chains have ended. -/
theorem Balanced.ended (h : Balanced tree b) (hp : tree.InTree p) (hl : tree.subtasks p = some l)
    (hfinish : 0 < b.tally (.finish p)) (hchain : tree.Chain (p, i) t) : 0 < b.tally (.done t) := by
  have hparallel := h.parallel p l hl
  split at hparallel
  case isFalse => omega
  case isTrue hzero =>
    have hsum := h.nleft p l hp hl hzero.1
    rw [hzero.2, Nat.zero_add] at hsum
    have hone : ∀ j ∈ range l.length, b.tally (.left (p, j)) ≤ 1 := by
      intro j hj
      have := h.left_le hp hl (mem_range.1 hj)
      have := h.call_le_one hp
      omega
    obtain ⟨u, hleads, hlast⟩ := tree.exists_last t
    have hchain' : tree.Chain (p, i) u := hchain.trans hleads
    obtain ⟨l', first, hl', hfirst, -⟩ := hchain
    rw [hl] at hl'
    cases hl'
    have hi := (List.getElem?_eq_some_iff.1 hfirst).1
    have hall : ∑ j ∈ range l.length, b.tally (.left (p, j)) = ∑ j ∈ range l.length, 1 := by
      rw [hsum, ← card_eq_sum_ones, card_range]
    have hleft := (sum_eq_sum_iff_of_le hone).1 hall i (mem_range.2 hi)
    have := h.last (p, i) u hchain' hp hlast
    have := h.done_le_of_leads hleads
    omega

def Quiet (b : Ledger) : Prop :=
  ∀ t q i, b.tally (.call t) = 0 ∧ b.tally (.loop t i) = 0 ∧ b.tally (.finish t) = 0 ∧ b.tally (.handOver t) = 0
    ∧ b.tally (.leave q) = 0 ∧ b.tally (.pending t) = 0

/-- In the end a task that was dispatched is done; the induction is on what is below it in the tree. -/
theorem Balanced.done_eq_one (h : Balanced tree b) (hquiet : b.Quiet) (ht : tree.InTree t)
    (hdispatched : b.tally (.dispatched t) = 1) : b.tally (.done t) = 1 := by
  induction t using tree.wellFounded.transGen.induction with
  | _ p ih =>
      obtain ⟨-, -, hfinish, -, -, hpending⟩ := hquiet p (0, 0) 0
      rcases hl : tree.subtasks p with _ | l
      · have := h.leaf p hl
        omega
      · have hchains : ∀ q v, q.1 = p → tree.Chain q v → b.tally (.done v) = 1 := by
          rintro q v rfl ⟨l', first, hl', hfirst, hleads⟩
          induction hleads with
          | refl =>
              have hchain : tree.Chain q first := ⟨l', first, hl', hfirst, .refl⟩
              apply ih first hchain.below (hchain.inTree ht)
              have := h.child q.1 q.2 first l' hl' hfirst
              obtain ⟨-, hloop, -⟩ := hquiet q.1 q q.2
              obtain ⟨hcall, -⟩ := hquiet first q 0
              omega
          | @tail u v hleads hnext ihu =>
              have hchain : tree.Chain q v := ⟨l', first, hl', hfirst, hleads.tail hnext⟩
              apply ih v hchain.below (hchain.inTree ht)
              have := h.next u v hnext
              obtain ⟨hcall, -, -, hhandOver, -⟩ := hquiet v q 0
              omega
        have hleft : ∀ i ∈ range l.length, b.tally (.left (p, i)) = 1 := by
          intro i hi
          have hlt := mem_range.1 hi
          obtain ⟨u, hleads, hlast⟩ := tree.exists_last l[i]
          have hchain : tree.Chain (p, i) u := ⟨l, l[i], hl, List.getElem?_eq_getElem hlt, hleads⟩
          have := h.last (p, i) u hchain ht hlast
          have := hchains (p, i) u rfl hchain
          obtain ⟨-, -, -, -, hleave, -⟩ := hquiet p (p, i) 0
          omega
        have hsum := h.nleft p l ht hl (by omega)
        rw [sum_congr rfl hleft, ← card_eq_sum_ones, card_range] at hsum
        have hparallel := h.parallel p l hl
        rw [if_pos ⟨by omega, by omega⟩] at hparallel
        omega

theorem Balanced.all_done (h : Balanced tree b) (hquiet : b.Quiet) (ht : tree.InTree t) :
    b.tally (.done t) = 1 := by
  apply h.done_eq_one hquiet ht
  induction ht with
  | root =>
      have := h.root
      obtain ⟨hcall, -⟩ := hquiet tree.root (0, 0) 0
      omega
  | @child p t l hp hl ht ih =>
      obtain ⟨i, hi⟩ := List.mem_iff_getElem?.1 ht
      have := h.child p i t l hl hi
      obtain ⟨-, hloop, -⟩ := hquiet p (0, 0) i
      obtain ⟨hcall, -⟩ := hquiet t (0, 0) 0
      omega
  | @next t u ht hnext ih =>
      have := h.next t u hnext
      have := h.done_eq_one hquiet ht ih
      obtain ⟨hcall, -, -, hhandOver, -⟩ := hquiet u (0, 0) 0
      omega

/-- How often a list of tokens counts for `k`. -/
def worth (l : List Token) (k : Token) : Nat := l.countP k.counts

/-- The tokens in `minus` go, and those in `plus` come. -/
def Exchanged (b b' : Ledger) (minus plus : List Token) : Prop :=
  ∀ k : Token, b'.tally k + worth minus k = b.tally k + worth plus k

/-- The exchange keeps the balance of each call with the one that it comes from. -/
structure Neutral (tree : TaskTree) (minus plus : List Token) : Prop where
  root : worth minus (.call tree.root) + worth minus (.dispatched tree.root)
    = worth plus (.call tree.root) + worth plus (.dispatched tree.root)
  child : ∀ (p i t : Nat) (l : List Nat), tree.subtasks p = some l → l[i]? = some t →
    worth minus (.loop p i) + worth minus (.call t) + worth minus (.dispatched t) + worth plus (.dispatched p)
      = worth plus (.loop p i) + worth plus (.call t) + worth plus (.dispatched t) + worth minus (.dispatched p)
  next : ∀ t u, tree.next t = some u →
    worth minus (.handOver u) + worth minus (.call u) + worth minus (.dispatched u) + worth plus (.done t)
      = worth plus (.handOver u) + worth plus (.call u) + worth plus (.dispatched u) + worth minus (.done t)
  leaf : ∀ t, tree.subtasks t = none →
    worth minus (.pending t) + worth minus (.finish t) + worth minus (.done t) + worth plus (.dispatched t)
      = worth plus (.pending t) + worth plus (.finish t) + worth plus (.done t) + worth minus (.dispatched t)
  last : ∀ q t, tree.Chain q t → tree.InTree q.1 → tree.next t = none →
    worth minus (.leave q) + worth minus (.left q) + worth plus (.done t)
      = worth plus (.leave q) + worth plus (.left q) + worth minus (.done t)

theorem Balanced.exchange {minus plus : List Token} (h : Balanced tree b) (hchange : b.Exchanged b' minus plus)
    (hneutral : Neutral tree minus plus)
    (hparallel : ∀ p l, tree.subtasks p = some l →
      b'.tally (.finish p) + b'.tally (.done p) = if 0 < b'.tally (.dispatched p) ∧ b'.nleft p = 0 then 1 else 0)
    (hnleft : ∀ p l, tree.InTree p → tree.subtasks p = some l → 0 < b'.tally (.dispatched p) →
      b'.nleft p + ∑ i ∈ range l.length, b'.tally (.left (p, i)) = l.length) : Balanced tree b' := by
  constructor
  case root =>
    have hcall := hchange (.call tree.root)
    have hdispatched := hchange (.dispatched tree.root)
    have := hneutral.root
    have := h.root
    omega
  case child =>
    intro p i t l hl ht
    have hloop := hchange (.loop p i)
    have hcall := hchange (.call t)
    have hdispatched := hchange (.dispatched t)
    have hparent := hchange (.dispatched p)
    have := hneutral.child p i t l hl ht
    have := h.child p i t l hl ht
    omega
  case next =>
    intro t u hu
    have hhandOver := hchange (.handOver u)
    have hcall := hchange (.call u)
    have hdispatched := hchange (.dispatched u)
    have hdone := hchange (.done t)
    have := hneutral.next t u hu
    have := h.next t u hu
    omega
  case leaf =>
    intro t ht
    have hpending := hchange (.pending t)
    have hfinish := hchange (.finish t)
    have hdone := hchange (.done t)
    have hdispatched := hchange (.dispatched t)
    have := hneutral.leaf t ht
    have := h.leaf t ht
    omega
  case last =>
    intro q t hchain hq hlast
    have hleave := hchange (.leave q)
    have hleft := hchange (.left q)
    have hdone := hchange (.done t)
    have := hneutral.last q t hchain hq hlast
    have := h.last q t hchain hq hlast
    omega
  case parallel => exact hparallel
  case nleft => exact hnleft

/-- An exchange in which no parallel task is dispatched or left. -/
theorem Balanced.exchange_quiet {minus plus : List Token} (h : Balanced tree b)
    (hchange : b.Exchanged b' minus plus) (hneutral : Neutral tree minus plus) (hsame : b'.nleft = b.nleft)
    (hparallel : ∀ p l, tree.subtasks p = some l → worth minus (.dispatched p) = worth plus (.dispatched p)
      ∧ worth minus (.finish p) + worth minus (.done p) = worth plus (.finish p) + worth plus (.done p))
    (hleft : ∀ q, worth minus (.left q) = worth plus (.left q)) : Balanced tree b' := by
  apply h.exchange hchange hneutral
  · intro p l hl
    have hfinish := hchange (.finish p)
    have hdone := hchange (.done p)
    have hdispatched := hchange (.dispatched p)
    have heq : b'.tally (.dispatched p) = b.tally (.dispatched p) := by
      have := (hparallel p l hl).1
      omega
    have hkept := h.parallel p l hl
    rw [heq, hsame, ← hkept]
    have := (hparallel p l hl).2
    omega
  · intro p l hp hl hpos
    have hdispatched := hchange (.dispatched p)
    have heq := (hparallel p l hl).1
    have hsum : ∑ i ∈ range l.length, b'.tally (.left (p, i)) = ∑ i ∈ range l.length, b.tally (.left (p, i)) := by
      apply sum_congr rfl
      intro i _
      have := hchange (.left (p, i))
      have := hleft (p, i)
      omega
    rw [hsame, hsum]
    exact h.nleft p l hp hl (by omega)

section

attribute [local simp] worth Token.counts List.countP_cons

theorem Balanced.call_leaf {k : Token} (h : Balanced tree b) (ht : tree.subtasks t = none)
    (hk : k = .finish t ∨ k = .pending t) (hchange : b.Exchanged b' [.call t] [k, .dispatched t])
    (hnleft : b'.nleft = b.nleft) : Balanced tree b' := by
  apply h.exchange_quiet hchange _ hnleft
  · intro p l hl
    have hne : t ≠ p := by
      rintro rfl
      rw [ht] at hl
      cases hl
    rcases hk with rfl | rfl <;> simp [hne]
  · intro q
    rcases hk with rfl | rfl <;> simp
  · constructor
    · rcases hk with rfl | rfl <;> simp
    · intro p i u l hl hu
      have hne : t ≠ p := by
        rintro rfl
        rw [ht] at hl
        cases hl
      rcases hk with rfl | rfl <;> simp [hne]
    · intro v w hw
      rcases hk with rfl | rfl <;> simp
    · intro v hv
      rcases hk with rfl | rfl <;> simp
    · intro q v _ _ _
      rcases hk with rfl | rfl <;> simp

theorem Balanced.complete (h : Balanced tree b) (ht : tree.subtasks t = none)
    (hchange : b.Exchanged b' [.pending t] [.finish t]) (hnleft : b'.nleft = b.nleft) : Balanced tree b' := by
  apply h.exchange_quiet hchange _ hnleft
  · intro p l hl
    have hne : t ≠ p := by
      rintro rfl
      rw [ht] at hl
      cases hl
    simp [hne]
  · simp
  · constructor <;> simp

theorem Balanced.handOver (h : Balanced tree b) (hu : tree.next t = some u)
    (hchange : b.Exchanged b' [.handOver u] [.call u]) (hnleft : b'.nleft = b.nleft) : Balanced tree b' := by
  apply h.exchange_quiet hchange _ hnleft
  · simp
  · simp
  · constructor
    · have hne : u ≠ tree.root := by
        rintro rfl
        exact tree.next_ne_root t hu
      simp [hne]
    · intro p i v l hl hv
      have hne : u ≠ v := by
        rintro rfl
        exact tree.next_ne_child p u t l hl (List.mem_of_getElem? hv) hu
      simp [hne]
    · simp
    · simp
    · simp

theorem Balanced.loop (h : Balanced tree b) (hl : tree.subtasks p = some l) (ht : l[i]? = some t)
    (hchange : b.Exchanged b' [.loop p i] (.call t :: if i + 1 ≠ l.length then [.loop p (i + 1)] else []))
    (hnleft : b'.nleft = b.nleft) : Balanced tree b' := by
  apply h.exchange_quiet hchange _ hnleft
  · intro p' l' hl'
    split <;> simp
  · intro q
    split <;> simp
  · constructor
    · have hne : t ≠ tree.root := by
        rintro rfl
        have := tree.place_child p i _ l hl ht
        rw [tree.place_root] at this
        cases this
      split <;> simp [hne]
    · intro p' j v l' hl' hv
      have hiff : t = v ↔ p = p' ∧ i = j := by
        constructor
        · rintro rfl
          have hplace := tree.place_child p i t l hl ht
          rw [tree.place_child p' j t l' hl' hv] at hplace
          cases hplace
          exact ⟨rfl, rfl⟩
        · rintro ⟨rfl, rfl⟩
          rw [hl] at hl'
          cases hl'
          rw [ht] at hv
          exact Option.some.inj hv
      have hlt : p = p' → j < l.length := by
        rintro rfl
        rw [hl] at hl'
        cases hl'
        exact (List.getElem?_eq_some_iff.1 hv).1
      have hi := (List.getElem?_eq_some_iff.1 ht).1
      split
      · simp [hiff]
        grind
      · simp [hiff]
        grind
    · intro v w hw
      have hne : t ≠ w := by
        rintro rfl
        exact tree.next_ne_child p t v l hl (List.mem_of_getElem? ht) hw
      split <;> simp [hne]
    · intro v hv
      split <;> simp
    · intro q v _ _ _
      split <;> simp

theorem Balanced.finish_next (h : Balanced tree b) (hu : tree.next t = some u)
    (hchange : b.Exchanged b' [.finish t] [.handOver u, .done t]) (hnleft : b'.nleft = b.nleft) :
    Balanced tree b' := by
  apply h.exchange_quiet hchange _ hnleft
  · simp
  · simp
  · constructor
    · simp
    · simp
    · intro v w hw
      have hiff : u = w ↔ t = v := by
        constructor
        · rintro rfl
          exact tree.next_injective t v u hu hw
        · rintro rfl
          rw [hu] at hw
          exact Option.some.inj hw
      simp [hiff]
    · simp
    · intro q v _ _ hlast
      have hne : t ≠ v := by
        rintro rfl
        rw [hu] at hlast
        cases hlast
      simp [hne]

/-- The last task of a chain, which leaves a parallel task or is at the root. -/
theorem Balanced.finish_last {o : Option (Nat × Nat)} (h : Balanced tree b) (ht : tree.next t = none)
    (htree : tree.InTree t) (ho : tree.place t = o)
    (hchange : b.Exchanged b' [.finish t] (.done t :: o.toList.map .leave)) (hnleft : b'.nleft = b.nleft) :
    Balanced tree b' := by
  apply h.exchange_quiet hchange _ hnleft
  · cases o <;> simp
  · cases o <;> simp
  · constructor
    · cases o <;> simp
    · cases o <;> simp
    · intro v w hw
      have hne : t ≠ v := by
        rintro rfl
        rw [ht] at hw
        cases hw
      cases o <;> simp [hne]
    · cases o <;> simp
    · intro q v hchain hq hlast
      cases o with
      | none =>
          have hne : t ≠ v := by
            rintro rfl
            rw [hchain.place_eq] at ho
            cases ho
          simp [hne]
      | some q' =>
          have hiff : q' = q ↔ t = v := by
            constructor
            · rintro rfl
              exact (htree.chain ho).1.last_unique hchain ht hlast
            · rintro rfl
              rw [hchain.place_eq] at ho
              exact (Option.some.inj ho).symm
          simp [hiff]

theorem Balanced.call_parallel (h : Balanced tree b) (hl : tree.subtasks t = some l) (htree : tree.InTree t)
    (hpos : 0 < b.tally (.call t))
    (hchange : b.Exchanged b' [.call t] [if l.length ≠ 0 then .loop t 0 else .finish t, .dispatched t])
    (hnleft : b'.nleft = Function.update b.nleft t l.length) : Balanced tree b' := by
  have hnew : b.tally (.dispatched t) = 0 := by
    have := h.call_le_one htree
    omega
  have hfinish : ∀ v, b'.tally (.finish v) = b.tally (.finish v) + if l = [] ∧ t = v then 1 else 0 := by
    intro v
    have := hchange (.finish v)
    by_cases hempty : l = [] <;> simpa [hempty] using this
  have hdone : ∀ v, b'.tally (.done v) = b.tally (.done v) := by
    intro v
    have := hchange (.done v)
    by_cases hempty : l = [] <;> simpa [hempty] using this
  have hdispatched : ∀ v, b'.tally (.dispatched v) = b.tally (.dispatched v) + if t = v then 1 else 0 := by
    intro v
    have := hchange (.dispatched v)
    by_cases hempty : l = [] <;> simpa [hempty] using this
  have hleft : ∀ q, b'.tally (.left q) = b.tally (.left q) := by
    intro q
    have := hchange (.left q)
    by_cases hempty : l = [] <;> simpa [hempty] using this
  apply h.exchange hchange
  · constructor
    · split <;> simp
    · intro p i u l' hl' hu
      have hlen : t = p → l.length ≠ 0 := by
        rintro rfl
        rw [hl] at hl'
        cases hl'
        have := (List.getElem?_eq_some_iff.1 hu).1
        omega
      split
      · simp
        omega
      · rename_i hempty
        have hne : t ≠ p := by
          intro htp
          exact hempty (hlen htp)
        simp [hne]
    · intro v w hw
      split <;> simp
    · intro v hv
      have hne : t ≠ v := by
        rintro rfl
        rw [hl] at hv
        cases hv
      split <;> simp [hne]
    · intro q v _ _ _
      split <;> simp
  · intro p l' hl'
    have hkept := h.parallel p l' hl'
    rw [hfinish, hdone, hdispatched, hnleft]
    by_cases htp : t = p
    · subst htp
      rw [hl] at hl'
      cases hl'
      rw [hnew] at hkept ⊢
      rw [Function.update_self]
      simp only [Nat.lt_irrefl, false_and, if_false, List.length_eq_zero_iff] at hkept ⊢
      by_cases hempty : l = [] <;> simp [hempty] <;> omega
    · simp only [htp, and_false, if_false, Nat.add_zero]
      rw [Function.update_of_ne (Ne.symm htp), hkept]
  · intro p l' hp hl' hpos'
    simp only [hleft, hnleft]
    by_cases htp : t = p
    · subst htp
      rw [hl] at hl'
      cases hl'
      have hnone : ∀ i ∈ range l.length, b.tally (.left (t, i)) = 0 := by
        intro i hi
        have := h.left_le htree hl (mem_range.1 hi)
        omega
      rw [Function.update_self, sum_eq_zero hnone, Nat.add_zero]
    · rw [Function.update_of_ne (Ne.symm htp)]
      apply h.nleft p l' hp hl'
      rw [hdispatched, if_neg htp] at hpos'
      exact hpos'

theorem Balanced.nleft_pos (h : Balanced tree b) (hp : tree.InTree p) (hl : tree.subtasks p = some l)
    (hi : i < l.length) (hpos : 0 < b.tally (.leave (p, i))) : 0 < b.nleft p := by
  have hone : b.tally (.dispatched p) ≤ 1 := by
    have := h.call_le_one hp
    omega
  have hbound := h.left_le hp hl hi
  have hkept := h.nleft p l hp hl (by omega)
  have hlt : ∑ j ∈ range l.length, b.tally (.left (p, j)) < l.length := by
    calc
      ∑ j ∈ range l.length, b.tally (.left (p, j)) < ∑ j ∈ range l.length, 1 := by
        apply sum_lt_sum
        · intro j hj
          have := h.left_le hp hl (mem_range.1 hj)
          omega
        · exact ⟨i, mem_range.2 hi, by omega⟩
      _ = l.length := by rw [← card_eq_sum_ones, card_range]
  omega

theorem neutral_leave (hl : tree.subtasks p = some l) (c : Prop) [Decidable c] :
    Neutral tree [.leave (p, i)] (.left (p, i) :: if c then [.finish p] else []) := by
  constructor
  · split <;> simp
  · intro p' j v l' _ _
    split <;> simp
  · intro v w _
    split <;> simp
  · intro v hv
    have hne : p ≠ v := by
      rintro rfl
      rw [hl] at hv
      cases hv
    split <;> simp [hne]
  · intro q v _ _ _
    split <;> simp

theorem Balanced.leave (h : Balanced tree b) (hp : tree.InTree p) (hl : tree.subtasks p = some l)
    (hi : i < l.length) (hpos : 0 < b.tally (.leave (p, i)))
    (hchange : b.Exchanged b' [.leave (p, i)]
      (.left (p, i) :: if b.nleft p - 1 = 0 then [.finish p] else []))
    (hnleft : b'.nleft = Function.update b.nleft p (b.nleft p - 1)) : Balanced tree b' ∧ 0 < b.nleft p := by
  have hsome := h.nleft_pos hp hl hi hpos
  have hbound := h.left_le hp hl hi
  have hdispatched : ∀ v, b'.tally (.dispatched v) = b.tally (.dispatched v) := by
    intro v
    have := hchange (.dispatched v)
    split at this <;> simpa using this
  have hdone : ∀ v, b'.tally (.done v) = b.tally (.done v) := by
    intro v
    have := hchange (.done v)
    split at this <;> simpa using this
  have hleft : ∀ q, b'.tally (.left q) = b.tally (.left q) + if (p, i) = q then 1 else 0 := by
    intro q
    have := hchange (.left q)
    split at this <;> simpa using this
  -- the decrement makes up for the one more that was left
  have hsum : ∑ j ∈ range l.length, b'.tally (.left (p, j)) = ∑ j ∈ range l.length, b.tally (.left (p, j)) + 1 := by
    simp only [hleft, sum_add_distrib, Prod.mk.injEq, true_and]
    rw [sum_ite_eq, if_pos (mem_range.2 hi)]
  have hkept := h.nleft p l hp hl (by omega)
  refine ⟨?_, hsome⟩
  apply h.exchange hchange (neutral_leave hl _)
  · intro p' l' hl'
    have hfinish := hchange (.finish p')
    have hparallel := h.parallel p' l' hl'
    rw [hdispatched, hdone, hnleft]
    by_cases hpp : p = p'
    · subst hpp
      rw [Function.update_self]
      rw [if_neg (by omega)] at hparallel
      split at hfinish
      · rename_i hzero
        simp [hzero] at hfinish ⊢
        rw [if_pos (by omega)]
        omega
      · rename_i hzero
        simp [hzero] at hfinish ⊢
        omega
    · rw [Function.update_of_ne (Ne.symm hpp), ← hparallel]
      split at hfinish <;> simp [hpp] at hfinish <;> omega
  · intro p' l' hp' hl' hpos'
    rw [hdispatched] at hpos'
    rw [hnleft]
    by_cases hpp : p = p'
    · subst hpp
      rw [hl] at hl'
      cases hl'
      rw [Function.update_self]
      omega
    · have hother : ∀ j ∈ range l'.length, b'.tally (.left (p', j)) = b.tally (.left (p', j)) := by
        intro j _
        simp [hleft, hpp]
      rw [Function.update_of_ne (Ne.symm hpp), sum_congr rfl hother]
      exact h.nleft p' l' hp' hl' hpos'

end

end Ledger

end WorkflowModel.Kernel.SubTask
