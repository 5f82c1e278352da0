import WorkflowModel.Manager.DNSCache
import WorkflowModel.Proof.CacheRuns
import Mathlib.Tactic.Ring

/-!
# Who refreshes a DNS entry

A call that finds an entry behind its deadline returns nothing and puts the deadline off, by ten seconds from
where it was and not from now. If the deadline is still past then, the next call returns nothing as well, and
so on until the deadline has caught up with the clock.
-/

namespace WorkflowModel.Manager.DNSUse

open Util Util.LRUCache DNSCache

variable {u v w : DNSUse} {key : HostPort} {type : GetType} {now : Int} {e : Nat}

def cached (u : DNSUse) (key : HostPort) : Option Nat := u.cache.pool.cacheMap.lookup key

def deadline (u : DNSUse) (e : Nat) (type : GetType) : Int := (u.cache.times e).deadline type

def Changes : Call → Prop
  | .put .. => True
  | .del _ => True
  | _ => False

def time : Call → Option Int
  | .put _ _ _ _ now => some now
  | .getInner _ _ now => some now
  | _ => none

def InOrder (history : List Event) : Prop := (history.filterMap fun event => time event.call).Pairwise (· ≤ ·)

/-- `first` and `second` ask for the entry of one key, and there is no `put` or `del` between them. -/
structure SameEntry (history : List Event) (key : HostPort) (type : GetType) (first second : Event)
    (t₁ t₂ : Int) : Prop where
  split : ∃ before mid after, history = before ++ first :: (mid ++ second :: after) ∧ ∀ event ∈ mid, ¬Changes event.call
  first : first.call = .getInner key type t₁
  second : second.call = .getInner key type t₂

/-- Of the calls for an entry within the increment of time at most one returns nothing, and only behind the
deadline. All others return the cached handle. -/
structure RefreshedOnce (type : GetType) (history : List Event) : Prop where
  once : ∀ key first second t₁ t₂, SameEntry history key type first second t₁ t₂ → first.found.cached key ≠ none →
    first.result = none → second.result = none → t₁ + type.inc ≤ t₂
  handle : ∀ event ∈ history, ∀ key now e, event.call = .getInner key type now → event.found.cached key = some e →
    event.result = none ∧ event.found.deadline e type < now ∨ event.result = some e

/-- When a call finds an entry behind its deadline, no later call for it comes when the deadline that it
leaves is over and the increment of time is not. -/
def DeadlineCatchesUp (type : GetType) (history : List Event) : Prop :=
  ∀ key first second t₁ t₂ e, SameEntry history key type first second t₁ t₂ → first.found.cached key = some e →
    first.found.deadline e type < t₁ →
      ¬(first.found.deadline e type + type.inc < t₂ ∧ t₂ < t₁ + type.inc)

def Valid (u : DNSUse) : Prop := ∃ made, Agreed u.cache.pool (fun e => u.held.count e) made

theorem deadline_putOff (x : DNSTimes) (type type' : GetType) :
    (x.putOff type).deadline type' = x.deadline type' + if type' = type then type.inc else 0 := by
  cases type <;> cases type' <;> simp [DNSTimes.putOff, DNSTimes.deadline, GetType.inc]

theorem lookup_eq_of_caches {c c' : LRUCache HostPort (List Bytes)} {refs refs' : Nat → Nat}
    {made made' : Nat → Option (HostPort × List Bytes)} (hc : Agreed c refs made) (hc' : Agreed c' refs' made')
    (h : ∀ i k, c'.Caches i k ↔ c.Caches i k) (key : HostPort) :
    c'.cacheMap.lookup key = c.cacheMap.lookup key := by
  apply Option.ext
  intro e
  rw [hc'.mapped, hc.mapped, h]

section Cache

variable {d : DNSCache} {refs : Nat → Nat} {made : Nat → Option (HostPort × List Bytes)}

/-- What `get_inner` returns and what it does to the deadlines. -/
inductive Inner (d : DNSCache) (key : HostPort) (type : GetType) (now : Int) (d' : DNSCache) : Option Nat → Prop where
  | nothing : d.pool.cacheMap.lookup key = none → d'.times = d.times → Inner d key type now d' none
  | expired (e : Nat) : d.pool.cacheMap.lookup key = some e → (d.times e).deadline type < now →
      d'.times = Function.update d.times e ((d.times e).putOff type) → Inner d key type now d' none
  | valid (e : Nat) : d.pool.cacheMap.lookup key = some e → ¬(d.times e).deadline type < now →
      d'.times = d.times → Inner d key type now d' (some e)

theorem getInner_spec (hc : Agreed d.pool refs made) (key : HostPort) (type : GetType) (now : Int) :
    ∃ d' result, d.getInner key type now = some (d', result)
      ∧ Agreed d'.pool (fun i => refs i + if result = some i then 1 else 0) made
      ∧ (∀ k, d'.pool.cacheMap.lookup k = d.pool.cacheMap.lookup k) ∧ Inner d key type now d' result := by
  obtain ⟨pool, handle, hget, hlookup, hpool, -, hcaches⟩ := hc.get key
  have hsame := lookup_eq_of_caches hc hpool hcaches
  unfold getInner
  rw [hget, Option.bind_eq_bind, Option.bind_some]
  cases handle with
  | none => exact ⟨_, none, rfl, hpool, hsame, .nothing hlookup.symm rfl⟩
  | some e =>
      dsimp only
      split_ifs with hexpired
      · -- the reference that `get` has taken is given back
        obtain ⟨pool', hrelease, hpool', -, hcaches'⟩ := hpool.release (e := e) (by simp)
        have hrefs : Function.update (fun i => refs i + if some e = some i then 1 else 0) e
            (refs e + (if some e = some e then 1 else 0) - 1) = fun i => refs i + if none = some i then 1 else 0 := by
          funext i
          obtain rfl | hne := eq_or_ne i e
          · simp
          · rw [Function.update_of_ne hne]
            simp [hne.symm]
        rw [hrefs] at hpool'
        rw [hrelease]
        refine ⟨_, none, rfl, hpool', ?_, .expired e hlookup.symm hexpired rfl⟩
        exact fun k => (lookup_eq_of_caches hpool hpool' hcaches' k).trans (hsame k)
      · exact ⟨_, some e, rfl, hpool, hsame, .valid e hlookup.symm hexpired rfl⟩

end Cache

theorem Valid.getInner (hu : u.Valid) (key : HostPort) (type : GetType) (now : Int) {v : DNSUse} {result : Option Nat}
    (hstep : u.step (.getInner key type now) = some (v, result)) :
    v.Valid ∧ (∀ k, v.cached k = u.cached k) ∧ Inner u.cache key type now v.cache result := by
  obtain ⟨made, hagreed⟩ := hu
  obtain ⟨d', result', hinner, hpool, hsame, hcases⟩ := getInner_spec hagreed key type now
  rw [step, hinner, Option.bind_eq_bind, Option.bind_some] at hstep
  obtain ⟨rfl, rfl⟩ := Prod.mk.inj (Option.some.inj hstep)
  refine ⟨⟨made, ?_⟩, hsame, hcases⟩
  rw [CacheUse.count_toList_append]
  exact hpool

theorem Valid.get (hu : u.Valid) (key : HostPort) {result : Option Nat}
    (hstep : u.step (.get key) = some (v, result)) :
    v.Valid ∧ (∀ k, v.cached k = u.cached k) ∧ v.cache.times = u.cache.times := by
  obtain ⟨made, hagreed⟩ := hu
  obtain ⟨pool, handle, hget, -, hpool, -, hcaches⟩ := hagreed.get key
  simp only [DNSUse.step, DNSCache.get, hget, Option.bind_eq_bind, Option.bind_some, Option.pure_def] at hstep
  obtain ⟨rfl, -⟩ := Prod.mk.inj (Option.some.inj hstep)
  refine ⟨⟨made, ?_⟩, lookup_eq_of_caches hagreed hpool hcaches, rfl⟩
  rw [CacheUse.count_toList_append]
  exact hpool

theorem Valid.release (hu : u.Valid) {handle result : Option Nat} (hallowed : u.Allowed (.release handle))
    (hstep : u.step (.release handle) = some (v, result)) :
    v.Valid ∧ (∀ k, v.cached k = u.cached k) ∧ v.cache.times = u.cache.times := by
  cases handle with
  | none =>
      cases hstep
      exact ⟨hu, fun _ => rfl, rfl⟩
  | some e =>
      obtain ⟨made, hagreed⟩ := hu
      obtain ⟨pool, hrelease, hpool, -, hcaches⟩ := hagreed.release (List.count_pos_iff.2 hallowed)
      simp only [DNSUse.step, DNSCache.release, hrelease, Option.bind_eq_bind, Option.bind_some,
        Option.pure_def] at hstep
      obtain ⟨rfl, -⟩ := Prod.mk.inj (Option.some.inj hstep)
      refine ⟨⟨made, ?_⟩, lookup_eq_of_caches hagreed hpool hcaches, rfl⟩
      rw [Option.elim_some, CacheUse.count_erase_update]
      exact hpool

/-- Every call succeeds, and leaves the pool in order. -/
theorem Valid.step (hu : u.Valid) {call : Call} {result : Option Nat} (hallowed : u.Allowed call)
    (hstep : u.step call = some (v, result)) : v.Valid := by
  obtain ⟨made, hagreed⟩ := id hu
  cases call with
  | getInner key type now => exact (hu.getInner key type now hstep).1
  | get key => exact (hu.get key hstep).1
  | del key =>
      obtain ⟨pool, hdel, hpool, -, -⟩ := hagreed.del key
      simp only [DNSUse.step, DNSCache.del, hdel, Option.bind_eq_bind, Option.bind_some, Option.pure_def] at hstep
      obtain ⟨rfl, -⟩ := Prod.mk.inj (Option.some.inj hstep)
      exact ⟨made, hpool⟩
  | put key addrinfo ttlDefault ttlMin now =>
      obtain ⟨pool, hput, hpool, -, -⟩ := hagreed.put key addrinfo
      simp only [DNSUse.step, DNSCache.put, hput, Option.bind_eq_bind, Option.bind_some, Option.pure_def] at hstep
      obtain ⟨rfl, -⟩ := Prod.mk.inj (Option.some.inj hstep)
      have hnew : u.held.count u.cache.pool.count = 0 :=
        hagreed.accounted.gone _ (hagreed.accounted.fresh _ le_rfl)
      refine ⟨Function.update made u.cache.pool.count (some (key, addrinfo)), ?_⟩
      rw [CacheUse.count_cons_update hnew]
      exact hpool
  | release handle => exact (hu.release hallowed hstep).1

def misses (key : HostPort) (type : GetType) (event : Event) : Bool :=
  match event.call with
  | .getInner key' type' _ => key' = key && type' = type && event.result.isNone
  | _ => false

/-- The entry of a key is the same, and its deadline is put off when a call for it has returned nothing. -/
structure SameHandle (u v : DNSUse) (key : HostPort) (type : GetType) (missed : Bool) : Prop where
  cached : v.cached key = u.cached key
  deadline : ∀ e, u.cached key = some e → v.deadline e type = u.deadline e type + if missed then type.inc else 0

theorem SameHandle.of_times {missed : Bool} (hcached : v.cached key = u.cached key)
    (htimes : v.cache.times = u.cache.times) (hmissed : missed = false) : SameHandle u v key type missed := by
  refine ⟨hcached, fun e _ => ?_⟩
  rw [hmissed]
  simp [DNSUse.deadline, htimes]

theorem Valid.key_unique (hu : u.Valid) {key' : HostPort} (h : u.cached key = some e) (h' : u.cached key' = some e) :
    key = key' := by
  obtain ⟨made, hagreed⟩ := hu
  exact ((hagreed.mapped key e).1 h).key_unique ((hagreed.mapped key' e).1 h')

theorem Valid.sameHandle_getInner (hu : u.Valid) (key : HostPort) (type : GetType) {key' : HostPort}
    {type' : GetType} {result : Option Nat}
    (hstep : u.step (.getInner key' type' now) = some (v, result)) :
    SameHandle u v key type (misses key type { found := u, call := .getInner key' type' now, result := result }) := by
  obtain ⟨-, hsame, hinner⟩ := hu.getInner key' type' now hstep
  cases hinner with
  | nothing hnone htimes =>
      refine ⟨hsame key, fun e he => ?_⟩
      have hne : key' ≠ key := by
        rintro rfl
        exact absurd (hnone.symm.trans he) nofun
      simp [DNSUse.deadline, htimes, misses, hne]
  | expired e' hcached hexpired htimes =>
      refine ⟨hsame key, fun e he => ?_⟩
      unfold DNSUse.deadline
      rw [htimes]
      obtain rfl | hne := eq_or_ne key' key
      · obtain rfl := Option.some.inj (he.symm.trans hcached)
        rw [Function.update_self, deadline_putOff]
        obtain rfl | htype := eq_or_ne type type'
        · simp [misses]
        · simp [misses, htype, htype.symm]
      · have hother : e ≠ e' := by
          rintro rfl
          exact hne (hu.key_unique hcached he)
        rw [Function.update_of_ne hother]
        simp [misses, hne]
  | valid e' hcached hvalid htimes =>
      apply SameHandle.of_times (hsame key) htimes
      simp [misses]

theorem Valid.sameHandle (hu : u.Valid) {call : Call} {result : Option Nat} (hallowed : u.Allowed call)
    (hstep : u.step call = some (v, result)) (hchanges : ¬Changes call) :
    SameHandle u v key type (misses key type { found := u, call := call, result := result }) := by
  cases call with
  | getInner key' type' now => exact hu.sameHandle_getInner key type hstep
  | get key' =>
      obtain ⟨-, hsame, htimes⟩ := hu.get key' hstep
      exact .of_times (hsame key) htimes rfl
  | release handle =>
      obtain ⟨-, hsame, htimes⟩ := hu.release hallowed hstep
      exact .of_times (hsame key) htimes rfl
  | put => exact absurd trivial hchanges
  | del => exact absurd trivial hchanges

theorem valid_start : start.Valid := ⟨fun _ => none, agreed_empty⟩

theorem Trace.split {events rest : List Event} (h : Trace u (events ++ rest) w) :
    ∃ v, Trace u events v ∧ Trace v rest w := by
  induction events generalizing u with
  | nil => exact ⟨u, .nil u, h⟩
  | cons event events ih =>
      cases h with
      | cons hallowed hstep hrest =>
          obtain ⟨v, hevents, hrest⟩ := ih hrest
          exact ⟨v, .cons hallowed hstep hevents, hrest⟩

theorem Trace.valid {events : List Event} (h : Trace u events v) (hu : u.Valid) : v.Valid := by
  induction h with
  | nil => exact hu
  | cons hallowed hstep _ ih => exact ih (hu.step hallowed hstep)

theorem Trace.deadline {events : List Event} (h : Trace u events v) (type : GetType) (hu : u.Valid)
    (hquiet : ∀ event ∈ events, ¬Changes event.call) (hcached : u.cached key = some e) :
    v.cached key = some e
      ∧ v.deadline e type = u.deadline e type + events.countP (misses key type) * type.inc := by
  induction h with
  | nil => exact ⟨hcached, by simp⟩
  | @cons u v w call result events hallowed hstep _ ih =>
      have hsame : SameHandle u v key type _ :=
        hu.sameHandle hallowed hstep (hquiet _ List.mem_cons_self)
      obtain ⟨hend, hdeadline⟩ := ih (hu.step hallowed hstep)
        (fun event hevent => hquiet event (List.mem_cons_of_mem _ hevent)) (hsame.cached.trans hcached)
      refine ⟨hend, ?_⟩
      rw [hdeadline, hsame.deadline e hcached, List.countP_cons]
      split_ifs
      · push_cast
        ring
      · push_cast
        ring

theorem Valid.result_getInner (hu : u.Valid) (hcached : u.cached key = some e) {result : Option Nat}
    (hstep : u.step (.getInner key type now) = some (v, result)) :
    result = none ∧ u.deadline e type < now ∨ result = some e ∧ ¬u.deadline e type < now := by
  obtain ⟨-, -, hinner⟩ := hu.getInner key type now hstep
  cases hinner with
  | nothing hnone _ => exact absurd (hnone.symm.trans hcached) nofun
  | expired e' he hexpired _ =>
      obtain rfl := Option.some.inj (he.symm.trans hcached)
      exact .inl ⟨rfl, hexpired⟩
  | valid e' he hvalid _ =>
      obtain rfl := Option.some.inj (he.symm.trans hcached)
      exact .inr ⟨rfl, hvalid⟩

theorem Trace.event {before after : List Event} {event : Event} (h : Trace u (before ++ event :: after) w)
    (hu : u.Valid) :
    event.found.Valid ∧ ∃ v, event.found.Allowed event.call ∧ event.found.step event.call = some (v, event.result)
      ∧ Trace v after w := by
  obtain ⟨found, hbefore, hevent⟩ := h.split
  cases hevent with
  | @cons _ v _ _ _ _ hallowed hstep hafter => exact ⟨hbefore.valid hu, v, hallowed, hstep, hafter⟩

theorem misses_iff {event : Event} :
    misses key type event = true ↔ (∃ now, event.call = .getInner key type now) ∧ event.result = none := by
  unfold misses
  split
  · next key' type' now hcall =>
      rw [hcall]
      simp [and_assoc]
  · next hcall =>
      constructor
      · nofun
      · rintro ⟨⟨now, hnow⟩, -⟩
        exact absurd hnow (hcall key type now)

theorem inc_pos (type : GetType) : 0 < type.inc := by
  cases type <;> decide

theorem InOrder.le {before mid after : List Event} {first second third : Event} {t₂ t₃ : Int}
    (h : InOrder (before ++ first :: (mid ++ second :: after))) (hthird : third ∈ mid)
    (ht₂ : time second.call = some t₂) (ht₃ : time third.call = some t₃) : t₃ ≤ t₂ := by
  unfold InOrder at h
  rw [List.pairwise_filterMap] at h
  have hrest := (List.pairwise_cons.mp (List.pairwise_append.mp h).2.1).2
  exact (List.pairwise_append.mp hrest).2.2 third hthird second List.mem_cons_self t₃ ht₃ t₂ ht₂

theorem Valid.expired_getInner (hu : u.Valid) {result : Option Nat} (hcached : u.cached key = some e)
    (hexpired : u.deadline e type < now) (hstep : u.step (.getInner key type now) = some (v, result)) :
    v.cached key = some e ∧ v.deadline e type = u.deadline e type + type.inc := by
  have hnone : result = none := by
    obtain ⟨hnone, -⟩ | ⟨-, hnot⟩ := hu.result_getInner hcached hstep
    · exact hnone
    · exact absurd hexpired hnot
  rw [hnone] at hstep
  have hsame := hu.sameHandle_getInner key type hstep
  refine ⟨hsame.cached.trans hcached, ?_⟩
  rw [hsame.deadline e hcached, if_pos]
  exact misses_iff.mpr ⟨⟨now, rfl⟩, rfl⟩

/-- The deadline that the second call finds: the one that the first has left, or another call between them has
returned nothing. -/
theorem SameEntry.deadline {history : List Event} {first second : Event} {t₁ t₂ : Int}
    (h : Trace start history w) (hsame : SameEntry history key type first second t₁ t₂)
    (hcached : first.found.cached key = some e) (hexpired : first.found.deadline e type < t₁) :
    second.found.cached key = some e
      ∧ first.found.deadline e type + type.inc ≤ second.found.deadline e type
      ∧ (second.found.deadline e type = first.found.deadline e type + type.inc
        ∨ ∃ third t₃, SameEntry history key type first third t₁ t₃ ∧ third.result = none
          ∧ (InOrder history → t₃ ≤ t₂)) := by
  obtain ⟨before, mid, after, rfl, hquiet⟩ := hsame.split
  obtain ⟨hvalid, v, hallowed, hstep, hrest⟩ := h.event valid_start
  have hv : v.Valid := hvalid.step hallowed hstep
  -- the first call puts the deadline off
  rw [hsame.first] at hstep
  obtain ⟨hkept, hleft⟩ := hvalid.expired_getInner hcached hexpired hstep
  -- and so do the calls between that return nothing
  obtain ⟨found, hmid, hsecond⟩ := hrest.split
  obtain ⟨hend, hdeadline⟩ := hmid.deadline type hv hquiet hkept
  have hfound : second.found = found := by
    cases hsecond with
    | cons _ _ _ => rfl
  rw [hfound, hdeadline, hleft]
  refine ⟨hend, ?_, ?_⟩
  · have hinc := inc_pos type
    have hcount : 0 ≤ (mid.countP (misses key type) : Int) * type.inc :=
      Int.mul_nonneg (Int.natCast_nonneg _) hinc.le
    omega
  · obtain hzero | hpos := Nat.eq_zero_or_pos (mid.countP (misses key type))
    · left
      rw [hzero]
      simp
    · right
      obtain ⟨third, hthird, hmiss⟩ := List.countP_pos_iff.mp hpos
      obtain ⟨⟨t₃, hcall⟩, hresult⟩ := misses_iff.mp hmiss
      refine ⟨third, t₃, ⟨?_, hsame.first, hcall⟩, hresult, ?_⟩
      · obtain ⟨mid₁, mid₂, rfl⟩ := List.append_of_mem hthird
        refine ⟨before, mid₁, mid₂ ++ second :: after, by simp, ?_⟩
        exact fun event hevent => hquiet event (List.mem_append_left _ hevent)
      · intro horder
        apply horder.le hthird
        · rw [hsame.second]
          rfl
        · rw [hcall]
          rfl

theorem SameEntry.second_step {history : List Event} {first second : Event} {t₁ t₂ : Int}
    (h : Trace start history w) (hsame : SameEntry history key type first second t₁ t₂) :
    second.found.Valid ∧ ∃ v, second.found.step (.getInner key type t₂) = some (v, second.result) := by
  obtain ⟨before, mid, after, rfl, -⟩ := hsame.split
  have hsplit : before ++ first :: (mid ++ second :: after) = (before ++ first :: mid) ++ second :: after := by simp
  rw [hsplit] at h
  obtain ⟨hvalid, v, -, hstep, -⟩ := h.event valid_start
  rw [hsame.second] at hstep
  exact ⟨hvalid, v, hstep⟩

theorem SameEntry.first_step {history : List Event} {first second : Event} {t₁ t₂ : Int}
    (h : Trace start history w) (hsame : SameEntry history key type first second t₁ t₂) :
    first.found.Valid ∧ ∃ v, first.found.step (.getInner key type t₁) = some (v, first.result) := by
  obtain ⟨before, mid, after, rfl, -⟩ := hsame.split
  obtain ⟨hvalid, v, -, hstep, -⟩ := h.event valid_start
  rw [hsame.first] at hstep
  exact ⟨hvalid, v, hstep⟩

/-- In every run whose clock does not go back, an entry is refreshed once in the increment of time exactly when its
deadline has caught up with every call that finds it over. -/
theorem refreshedOnce_iff {history : List Event} (h : Trace start history u) (horder : InOrder history)
    (type : GetType) : RefreshedOnce type history ↔ DeadlineCatchesUp type history := by
  constructor
  · rintro ⟨honce, -⟩ key first second t₁ t₂ e hsame hcached hexpired ⟨hover, hsoon⟩
    obtain ⟨hvalid, v, hstep⟩ := hsame.first_step h
    have hfirst : first.result = none := by
      obtain ⟨hnone, -⟩ | ⟨-, hnot⟩ := hvalid.result_getInner hcached hstep
      · exact hnone
      · exact absurd hexpired hnot
    have hkey : first.found.cached key ≠ none := by
      rw [hcached]
      exact nofun
    obtain ⟨hcached₂, -, hleft | ⟨third, t₃, hthird, hnone, hle⟩⟩ := hsame.deadline h hcached hexpired
    · obtain ⟨hvalid₂, v₂, hstep₂⟩ := hsame.second_step h
      have hsecond : second.result = none := by
        obtain ⟨hnone, -⟩ | ⟨-, hnot⟩ := hvalid₂.result_getInner hcached₂ hstep₂
        · exact hnone
        · rw [hleft] at hnot
          exact absurd hover hnot
      have hlate := honce key first second t₁ t₂ hsame hkey hfirst hsecond
      omega
    · have hlate := honce key first third t₁ t₃ hthird hkey hfirst hnone
      have hbefore := hle horder
      omega
  · intro hcatches
    refine ⟨?_, ?_⟩
    · intro key first second t₁ t₂ hsame hkey hfirst hsecond
      obtain ⟨e, hcached⟩ := Option.ne_none_iff_exists'.mp hkey
      obtain ⟨hvalid, v, hstep⟩ := hsame.first_step h
      obtain ⟨hvalid₂, v₂, hstep₂⟩ := hsame.second_step h
      have hexpired : first.found.deadline e type < t₁ := by
        obtain ⟨-, hexpired⟩ | ⟨hsome, -⟩ := hvalid.result_getInner hcached hstep
        · exact hexpired
        · exact absurd (hfirst.symm.trans hsome) nofun
      obtain ⟨hcached₂, hlater, -⟩ := hsame.deadline h hcached hexpired
      have hexpired₂ : second.found.deadline e type < t₂ := by
        obtain ⟨-, hexpired⟩ | ⟨hsome, -⟩ := hvalid₂.result_getInner hcached₂ hstep₂
        · exact hexpired
        · exact absurd (hsecond.symm.trans hsome) nofun
      have hnot := hcatches key first second t₁ t₂ e hsame hcached hexpired
      omega
    · intro event hevent key now e hcall hcached
      obtain ⟨before, after, rfl⟩ := List.append_of_mem hevent
      obtain ⟨hvalid, v, -, hstep, -⟩ := h.event valid_start
      rw [hcall] at hstep
      obtain hexpired | ⟨hsome, -⟩ := hvalid.result_getInner hcached hstep
      · exact .inl hexpired
      · exact .inr hsome

theorem Trace.of_exec {calls : List Call} {p : List Event × DNSUse} (h : u.exec calls = some p) :
    Trace u p.1 p.2 ∧ p.1.map Event.call = calls := by
  induction calls generalizing u p with
  | nil =>
      cases h
      exact ⟨.nil u, rfl⟩
  | cons call calls ih =>
      rw [exec] at h
      split_ifs at h with hallowed
      obtain ⟨⟨v, result⟩, hstep, h⟩ := Option.bind_eq_some_iff.mp h
      obtain ⟨⟨events, w⟩, hrest, h⟩ := Option.bind_eq_some_iff.mp h
      cases h
      obtain ⟨htrace, hcalls⟩ := ih hrest
      exact ⟨.cons hallowed hstep htrace, congrArg (call :: ·) hcalls⟩

theorem InOrder.of_calls {history : List Event} {calls : List Call} (hcalls : history.map Event.call = calls)
    (h : (calls.filterMap time).Pairwise (· ≤ ·)) : InOrder history := by
  rw [← hcalls, List.filterMap_map] at h
  exact h

def staleKey : HostPort := (bytesOf "host", 80)

/-- An entry with five seconds to live, and two requests for it at 100. -/
def staleCalls : List Call :=
  [.put staleKey [[1]] 5 5 0, .getInner staleKey .ttl 100, .getInner staleKey .ttl 100]

theorem exec_staleCalls :
    (start.exec staleCalls).map (fun p => p.1.map fun event => (event.result, event.found.cached staleKey))
      = some [(some 0, none), (none, some 0), (none, some 0)] := by decide

/-- The same entry, with a request three seconds behind its deadline and another one two seconds later. -/
def refreshCalls : List Call :=
  [.put staleKey [[1]] 5 5 0, .getInner staleKey .ttl 8, .getInner staleKey .ttl 10]

/-- The first request leaves a deadline at 15, so the second one gets the handle. -/
theorem refreshedOnce_iff_refreshCalls :
    ∃ history u, Trace start history u ∧ (history.map fun event => event.result) = [some 0, none, some 0]
      ∧ RefreshedOnce .ttl history := by
  have hexec : (start.exec refreshCalls).map (fun p => p.1.map fun event =>
      (event.result, event.found.cached staleKey, event.found.deadline 0 .ttl))
      = some [(some 0, none, 0), (none, some 0, 5), (some 0, some 0, 15)] := by decide
  obtain ⟨p, hexec, hseen⟩ := Option.map_eq_some_iff.mp hexec
  obtain ⟨htrace, hcalls⟩ := Trace.of_exec hexec
  have hresults := congrArg (List.map Prod.fst) hseen
  rw [List.map_map] at hresults
  refine ⟨p.1, p.2, htrace, hresults, ?_⟩
  apply (refreshedOnce_iff htrace (InOrder.of_calls hcalls (by decide)) .ttl).mpr
  have hlength := congrArg List.length hcalls
  rw [List.length_map] at hlength
  obtain ⟨stored, first, second, hhistory⟩ := List.length_eq_three.mp hlength
  rw [hhistory] at hseen hcalls ⊢
  simp only [List.map_cons, List.map_nil, List.cons.injEq, Prod.mk.injEq, and_true, refreshCalls] at hseen hcalls
  obtain ⟨hput, hfirst, hsecond⟩ := hcalls
  obtain ⟨-, ⟨-, hcached, hdeadline⟩, -⟩ := hseen
  -- the entry is asked for by the last two calls only
  have hpairs : [stored, first, second].Pairwise fun f s => ∀ key t₁ t₂ e, f.call = .getInner key .ttl t₁ →
      s.call = .getInner key .ttl t₂ → f.found.cached key = some e → ¬ f.found.deadline e .ttl + GetType.ttl.inc < t₂ := by
    simp only [List.pairwise_cons, List.mem_cons, List.not_mem_nil, or_false, forall_eq, hput, hfirst,
      hsecond, reduceCtorEq, false_imp_iff, implies_true, true_and, List.Pairwise.nil, and_true]
    rintro key t₁ t₂ e ⟨⟩ ⟨⟩ he
    rw [hcached] at he
    cases he
    rw [hdeadline]
    decide
  rintro key f s t₁ t₂ e ⟨⟨before, mid, after, hsplit, -⟩, hf, hs⟩ he - ⟨hlate, -⟩
  rw [hsplit] at hpairs
  have hlater := (List.pairwise_cons.mp (List.pairwise_append.mp hpairs).2.1).1 s (by simp)
  exact hlater key t₁ t₂ e hf hs he hlate

/-- Two requests of the same second both resolve the name anew. -/
theorem not_refreshedOnce_staleCalls :
    ¬∀ (history : List Event) (u : DNSUse) (type : GetType), Trace start history u → InOrder history →
      RefreshedOnce type history := by
  intro hall
  obtain ⟨p, hexec, hresults⟩ := Option.map_eq_some_iff.mp exec_staleCalls
  obtain ⟨htrace, hcalls⟩ := Trace.of_exec hexec
  have honce := (hall p.1 p.2 .ttl htrace (InOrder.of_calls hcalls (by decide))).once
  have hlength := congrArg List.length hcalls
  rw [List.length_map] at hlength
  obtain ⟨stored, first, second, hhistory⟩ := List.length_eq_three.mp hlength
  rw [hhistory] at hresults hcalls honce
  simp only [List.map_cons, List.map_nil, List.cons.injEq, Prod.mk.injEq, staleCalls] at hresults hcalls
  obtain ⟨-, ⟨hfirst, hcached⟩, ⟨hsecond, -⟩, -⟩ := hresults
  have hsame : SameEntry [stored, first, second] staleKey .ttl first second 100 100 :=
    ⟨⟨[stored], [], [], rfl, nofun⟩, hcalls.2.1, hcalls.2.2.1⟩
  have hlate := honce staleKey first second 100 100 hsame (by rw [hcached]; exact nofun) hfirst hsecond
  exact absurd hlate (by decide)

end WorkflowModel.Manager.DNSUse
