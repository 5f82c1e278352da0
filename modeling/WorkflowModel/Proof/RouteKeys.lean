import WorkflowModel.Manager.RouteManager
import Mathlib.Data.List.Lex
import Mathlib.Data.Prod.Lex

/-!
# The keys of routes

The string under which a route is hashed does not depend on the order of the addresses, since they are sorted
by a total order. It does not say where its parts end: the line feed between them may be in them as well, and
a text before the addresses looks like one more address. So a route has its string alone only when the string
has no line feed that could be read in two ways.
-/

namespace WorkflowModel.Manager.RouteManager

open WorkflowModel

/-- `__addr_cmp` compares the lengths, and then the bytes. -/
def sortKey (addr : Bytes) : ℕ ×ₗ List ℕ := toLex (addr.length, addr.map UInt8.toNat)

theorem sortKey_injective : Function.Injective sortKey := by
  intro x y h
  have hbytes : x.map UInt8.toNat = y.map UInt8.toNat := congrArg (fun k => (ofLex k).2) h
  exact List.map_injective_iff.mpr (fun _ _ => UInt8.toNat_inj.mp) hbytes

theorem memcmp_neg_iff {x y : Bytes} (h : x.length = y.length) :
    memcmp x y < 0 ↔ x.map UInt8.toNat < y.map UInt8.toNat := by
  induction x generalizing y with
  | nil =>
      obtain rfl := List.length_eq_zero_iff.mp h.symm
      simp [memcmp]
  | cons c x ih =>
      match y with
      | [] => cases h
      | d :: y =>
          rw [memcmp, List.map_cons, List.map_cons, List.cons_lt_cons_iff]
          split_ifs with heq hlt
          · rw [ih (Nat.succ.inj h), heq]
            simp
          · simp [UInt8.lt_iff_toNat_lt.mp hlt]
          · have hne : c.toNat ≠ d.toNat := fun h => heq (UInt8.toNat_inj.mp h)
            simp [hne, mt UInt8.lt_iff_toNat_lt.mpr hlt]

theorem addrLess_iff {x y : Bytes} : addrLess x y = true ↔ sortKey x < sortKey y := by
  unfold addrLess addrCmp sortKey
  rw [decide_eq_true_iff, Prod.Lex.toLex_lt_toLex]
  split_ifs with hlength hless
  · rw [memcmp_neg_iff hlength]
    simp [hlength]
  · simp [hless]
  · simp [hlength, hless]

/-- Two lists are sorted to the same list exactly when they are permutations of each other. -/
theorem sortAddr_eq_iff {l l' : List Bytes} : sortAddr l = sortAddr l' ↔ l.Perm l' := by
  let le : Bytes → Bytes → Bool := fun x y => !addrLess y x
  have hle : ∀ x y, le x y = true ↔ sortKey x ≤ sortKey y := by
    intro x y
    rw [← not_lt, ← addrLess_iff]
    simp [le]
  have hsorted : ∀ l : List Bytes, (l.mergeSort le).Pairwise fun x y => le x y = true := by
    intro l
    apply List.pairwise_mergeSort
    · intro x y z hxy hyz
      exact (hle x z).mpr (((hle x y).mp hxy).trans ((hle y z).mp hyz))
    · intro x y
      rw [Bool.or_eq_true, hle, hle]
      exact le_total _ _
  constructor
  · intro h
    calc l.Perm (sortAddr l) := (List.mergeSort_perm l le).symm
      _ = sortAddr l' := h
      List.Perm _ l' := List.mergeSort_perm l' le
  · intro h
    apply List.Perm.eq_of_pairwise _ (hsorted l) (hsorted l')
    · exact ((List.mergeSort_perm l le).trans h).trans (List.mergeSort_perm l' le).symm
    · intro x y _ _ hxy hyx
      exact sortKey_injective (le_antisymm ((hle x y).mp hxy) ((hle y x).mp hyx))

theorem sortAddr_singleton (addr : Bytes) : sortAddr [addr] = [addr] := List.mergeSort_singleton addr

theorem keyString_of_perm {l l' : List Bytes} (h : l.Perm l') (type : TransportType) (otherInfo : Bytes) :
    keyString type l otherInfo = keyString type l' otherInfo := by
  unfold keyString
  rw [sortAddr_eq_iff.mpr h]

theorem sortAddr_of_pairwise {l : List Bytes} (h : l.Pairwise fun x y => (!addrLess y x) = true) : sortAddr l = l :=
  List.mergeSort_of_pairwise h

def keyTail (otherInfo : Bytes) (addrinfo : List Bytes) : Bytes :=
  (if otherInfo = [] then [] else otherInfo ++ [charLf]) ++ (sortAddr addrinfo).flatMap fun addr => addr ++ [charLf]

theorem decimal_value (type : TransportType) : decimal type.value = [(48 + type.value).toUInt8] := by
  cases type <;> decide

theorem keyString_eq_iff {type type' : TransportType} {l l' : List Bytes} {info info' : Bytes} :
    keyString type' l' info' = keyString type l info ↔ type' = type ∧ keyTail info' l' = keyTail info l := by
  have hdigit : (48 + type'.value).toUInt8 = (48 + type.value).toUInt8 ↔ type' = type := by
    cases type <;> cases type' <;> decide
  have hkey : ∀ type l info, keyString type l info
      = bytesOf "TT" ++ ([(48 + type.value).toUInt8] ++ ([charLf] ++ keyTail info l)) := by
    intro type l info
    unfold keyString keyTail
    rw [decimal_value]
    simp only [List.append_assoc]
  simp only [hkey, List.append_cancel_left_eq, List.singleton_append, List.cons.injEq, hdigit, true_and]

theorem sortAddr_ne_nil {l : List Bytes} (h : l ≠ []) : sortAddr l ≠ [] := by
  intro hnil
  apply h
  apply List.Perm.eq_nil
  rw [← hnil]
  exact (List.mergeSort_perm l _).symm

theorem keyTail_eq_concat {l : List Bytes} (h : l ≠ []) (info : Bytes) :
    ∃ text, keyTail info l = text ++ [charLf] := by
  unfold keyTail
  obtain hnil | ⟨before, last, hlast⟩ := List.eq_nil_or_concat (sortAddr l)
  · exact absurd hnil (sortAddr_ne_nil h)
  · rw [hlast, List.concat_eq_append, List.flatMap_append, List.flatMap_singleton, ← List.append_assoc, ← List.append_assoc]
    exact ⟨_, rfl⟩

theorem keyTail_singleton (addr : Bytes) : keyTail [] [addr] = addr ++ [charLf] := by
  rw [keyTail, if_pos rfl, sortAddr_singleton, List.nil_append, List.flatMap_singleton]

theorem length_le_count_flatMap (l : List Bytes) :
    l.length ≤ (l.flatMap fun addr => addr ++ [charLf]).count charLf := by
  induction l with
  | nil => exact Nat.zero_le _
  | cons addr l ih =>
      rw [List.flatMap_cons, List.count_append, List.count_append, List.count_singleton_self, List.length_cons]
      omega

theorem keyTail_eq_singleton {info addr : Bytes} {l : List Bytes} (hl : l ≠ []) (hlf : charLf ∉ addr)
    (h : keyTail info l = keyTail [] [addr]) : info = [] ∧ l = [addr] := by
  have hcount : (keyTail info l).count charLf = 1 := by
    rw [h, keyTail_singleton, List.count_append, List.count_singleton_self, List.count_eq_zero.mpr hlf]
  have hsorted : 1 ≤ (sortAddr l).length := List.length_pos_iff.mpr (sortAddr_ne_nil hl)
  have haddrs := length_le_count_flatMap (sortAddr l)
  rw [keyTail_singleton] at h
  unfold keyTail at hcount h
  by_cases hinfo : info = []
  · rw [if_pos hinfo, List.nil_append] at hcount h
    obtain ⟨addr', hone⟩ := List.length_eq_one_iff.mp (by omega : (sortAddr l).length = 1)
    have haddr : addr' = addr := by
      rw [hone, List.flatMap_singleton] at h
      exact List.append_cancel_right h
    refine ⟨hinfo, List.perm_singleton.mp ?_⟩
    rw [← sortAddr_eq_iff, sortAddr_singleton, hone, haddr]
  · rw [if_neg hinfo, List.count_append, List.count_append, List.count_singleton_self] at hcount
    omega

theorem exists_other_reading {addr : Bytes} (hlf : charLf ∈ addr) :
    ∃ info l, l ≠ [] ∧ keyTail info l = keyTail [] [addr] ∧ ¬(info = [] ∧ l = [addr]) := by
  obtain ⟨first, rest, rfl⟩ := List.append_of_mem hlf
  by_cases hfirst : first = []
  · have hsorted : sortAddr [[], rest] = [[], rest] := by
      apply sortAddr_of_pairwise
      cases rest <;> simp [addrLess, addrCmp, memcmp]
    refine ⟨[], [[], rest], List.cons_ne_nil _ _, ?_, by simp⟩
    rw [keyTail_singleton, keyTail, if_pos rfl, hsorted, hfirst]
    simp
  · refine ⟨first, [rest], List.cons_ne_nil _ _, ?_, fun h => hfirst h.1⟩
    rw [keyTail_singleton, keyTail, if_neg hfirst, sortAddr_singleton, List.flatMap_singleton]
    simp

def KeyDetermines (type : TransportType) (l : List Bytes) (info : Bytes) : Prop :=
  ∀ (type' : TransportType) (l' : List Bytes) (info' : Bytes), l' ≠ [] →
    keyString type' l' info' = keyString type l info → type' = type ∧ info' = info ∧ l'.Perm l

/-- No other route has the string of a route exactly when this one has no `other_info` and one address without a
line feed. -/
theorem keyDetermines_iff (type : TransportType) {l : List Bytes} (hl : l ≠ []) (info : Bytes) :
    KeyDetermines type l info ↔ info = [] ∧ ∃ addr, l = [addr] ∧ charLf ∉ addr := by
  constructor
  · intro h
    obtain ⟨text, htext⟩ := keyTail_eq_concat hl info
    obtain ⟨-, hinfo, hperm⟩ := h type [text] [] (List.cons_ne_nil _ _)
      (keyString_eq_iff.mpr ⟨rfl, by rw [keyTail_singleton, htext]⟩)
    obtain rfl := List.perm_singleton.mp hperm.symm
    refine ⟨hinfo.symm, text, rfl, ?_⟩
    intro hlf
    obtain ⟨info', l', hl', hkey, hother⟩ := exists_other_reading hlf
    rw [hinfo] at hkey
    obtain ⟨-, hinfo', hperm'⟩ := h type l' info' hl' (keyString_eq_iff.mpr ⟨rfl, hkey⟩)
    exact hother ⟨hinfo'.trans hinfo.symm, List.perm_singleton.mp hperm'⟩
  · rintro ⟨rfl, addr, rfl, hlf⟩ type' l' info' hl' hkey
    obtain ⟨htype, htail⟩ := keyString_eq_iff.mp hkey
    obtain ⟨hinfo, rfl⟩ := keyTail_eq_singleton hl' hlf htail
    exact ⟨htype, hinfo, .refl _⟩

/-- The `sockaddr_in` of a port of the local host. -/
def localhost (port : UInt8) : Bytes := [2, 0, 0, port, 127, 0, 0, 1, 0, 0, 0, 0, 0, 0, 0, 0]

theorem keyDetermines_localhost : KeyDetermines .tcp [localhost 80] [] :=
  (keyDetermines_iff .tcp (List.cons_ne_nil _ _) []).mpr ⟨rfl, localhost 80, rfl, by decide⟩

/-- An `other_info` with the bytes of an address is taken for the address. -/
theorem not_keyString_injective :
    ¬∀ (type type' : TransportType) (l l' : List Bytes) (info info' : Bytes), l ≠ [] → l' ≠ [] →
      keyString type l info = keyString type' l' info' → type = type' ∧ info = info' ∧ l.Perm l' := by
  intro h
  have hsorted : sortAddr [localhost 80, localhost 81] = [localhost 80, localhost 81] := by
    apply sortAddr_of_pairwise
    decide
  have hkey : keyTail (localhost 80) [localhost 81] = keyTail [] [localhost 80, localhost 81] := by
    unfold keyTail
    rw [hsorted, sortAddr_singleton]
    decide
  have heq := h .tcp .tcp [localhost 81] [localhost 80, localhost 81] (localhost 80) [] (by simp) (by simp)
    (keyString_eq_iff.mpr ⟨rfl, hkey⟩)
  exact absurd heq.2.1 (by decide)

end WorkflowModel.Manager.RouteManager
