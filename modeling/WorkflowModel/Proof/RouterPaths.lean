import WorkflowModel.Factory.RouterTask
import WorkflowModel.Proof.RouteRuns

/-!
# Cached and fresh addresses

A router task asks for a route in two places: in `dispatch` for addresses from the cache, and in
`dns_callback_internal` for addresses that have just been resolved. Only the first one looks at
`first_addr_only_`.
-/

namespace WorkflowModel.Factory

open WorkflowModel Manager Manager.RouteManager Algorithm Client

variable {env : Surroundings} {w w' w₁ w₂ : RouterWorld} {addrinfo : List Bytes}

/-- The cache gives `dispatch` a handle with the addresses. -/
def Finds (env : Surroundings) (w : RouterWorld) (addrinfo : List Bytes) : Prop :=
  ∃ cache e h, w.task.lookup env w.cache = some (cache, some e) ∧ cache.pool.handles e = some h ∧ h.value = addrinfo

structure SameSettings (task task' : RouterTask) : Prop where
  type : task'.type = task.type
  info : task'.info = task.info
  endpointParams : task'.endpointParams = task.endpointParams
  firstAddrOnly : task'.firstAddrOnly = task.firstAddrOnly

/-- From `w` to `w₁` and from `w'` to `w₂` the route manager was asked once, with the same arguments; if it was in the
same state, the route is the same. -/
structure RoutedAlike (w w₁ w' w₂ : RouterWorld) : Prop where
  asked : ∃ args, w₁.asked = w.asked ++ [args] ∧ w₂.asked = w'.asked ++ [args]
  routed : w'.manager = w.manager →
    w₂.task.routeResult = w₁.task.routeResult ∧ w₂.task.state = w₁.task.state

/-- The route manager was asked for the route of the addresses, and the task has the reply. -/
structure Asks (env : Surroundings) (addrinfo : List Bytes) (w w₁ : RouterWorld) : Prop where
  asked : w₁.asked = w.asked ++ [w.task.routeArgs addrinfo]
  routeResult : w₁.task.routeResult = (get env.lib (env.request (w.task.routeArgs addrinfo)) w.manager).2.2
  state : w₁.task.state
    = (w.task.routed env (get env.lib (env.request (w.task.routeArgs addrinfo)) w.manager).2).state

theorem routed_routeResult (env : Surroundings) (reply : Int × RouteManager.RouteResult) (task : RouterTask) :
    (task.routed env reply).routeResult = reply.2 := by
  unfold RouterTask.routed
  dsimp only
  split_ifs <;> rfl

theorem routed_state (env : Surroundings) (reply : Int × RouteManager.RouteResult) (task task' : RouterTask) :
    (task'.routed env reply).state = (task.routed env reply).state := by
  unfold RouterTask.routed
  dsimp only
  split_ifs <;> rfl

theorem asks_askRoute (env : Surroundings) (addrinfo : List Bytes) (w : RouterWorld) :
    Asks env addrinfo w (w.askRoute env addrinfo) :=
  ⟨rfl, routed_routeResult env _ _, rfl⟩

theorem dispatchAddress_of_routed (h : w.task.insertDns = false) : dispatchAddress env w = some w := by
  unfold dispatchAddress
  rw [if_neg]
  rw [h]
  exact fun hinsert => Bool.false_ne_true hinsert.1

theorem asks_dispatchCached (hne : addrinfo ≠ []) (hfinds : Finds env w addrinfo)
    (hrun : dispatchCached env w = some w₁) :
    Asks env (w.task.cachedAddrinfo addrinfo) w w₁ ∧ w₁.task.insertDns = false := by
  obtain ⟨cache, e, h, hlookup, hhandle, rfl⟩ := hfinds
  unfold dispatchCached at hrun
  rw [hlookup, Option.bind_eq_bind, Option.bind_some] at hrun
  dsimp only at hrun
  rw [hhandle, Option.bind_eq_bind, Option.bind_some, if_pos hne] at hrun
  obtain ⟨cache', hrelease, hrun⟩ := Option.bind_eq_some_iff.mp hrun
  cases hrun
  obtain ⟨hasked, hresult, hstate⟩ := asks_askRoute env (w.task.cachedAddrinfo h.value) { w with cache := cache }
  exact ⟨⟨hasked, hresult, hstate⟩, rfl⟩

theorem asks_dispatch {pushed : Bool} (hne : addrinfo ≠ []) (hfinds : Finds env w addrinfo)
    (hrun : dispatch env w = some (w₁, pushed)) :
    Asks env (w.task.cachedAddrinfo addrinfo) w w₁ ∧ pushed = false := by
  unfold dispatch at hrun
  obtain ⟨v, hcached, hrun⟩ := Option.bind_eq_some_iff.mp hrun
  have hfinds' : Finds env { w with task := { w.task with insertDns := true } } addrinfo := hfinds
  obtain ⟨hasks, hinsert⟩ := asks_dispatchCached hne hfinds' hcached
  rw [dispatchAddress_of_routed hinsert, Option.bind_eq_bind, Option.bind_some] at hrun
  cases hrun
  refine ⟨⟨hasks.asked, hasks.routeResult, ?_⟩, hinsert⟩
  rw [hasks.state]
  exact routed_state env _ _ _

theorem asks_dnsCallbackInternal {ttlDefault ttlMin : Nat} (hne : addrinfo ≠ [])
    (hrun : dnsCallbackInternal env { error := 0, addrinfo := addrinfo } ttlDefault ttlMin w = some w₁) :
    Asks env addrinfo w w₁ := by
  unfold dnsCallbackInternal at hrun
  rw [if_neg (by simp), if_pos hne] at hrun
  obtain ⟨⟨cache, handle⟩, hput, hrun⟩ := Option.bind_eq_some_iff.mp hrun
  obtain ⟨cache', hrelease, hrun⟩ := Option.bind_eq_some_iff.mp hrun
  cases hrun
  obtain ⟨hasked, hresult, hstate⟩ := asks_askRoute env addrinfo { w with cache := cache }
  exact ⟨hasked, hresult, hstate⟩

theorem SameSettings.routeArgs {task task' : RouterTask} (h : SameSettings task task') (addrinfo : List Bytes) :
    task'.routeArgs addrinfo = task.routeArgs addrinfo := by
  unfold RouterTask.routeArgs
  rw [h.type, h.info, h.endpointParams]

theorem cachedAddrinfo_eq_self_iff (task : RouterTask) (addrinfo : List Bytes) :
    task.cachedAddrinfo addrinfo = addrinfo ↔ ¬(task.firstAddrOnly = true ∧ 2 ≤ addrinfo.length) := by
  unfold RouterTask.cachedAddrinfo
  split_ifs with hfirst
  · apply iff_of_false _ (not_not_intro hfirst)
    intro heq
    have hlength := congrArg List.length heq
    rw [List.length_take] at hlength
    omega
  · exact iff_of_true rfl hfirst

theorem Asks.routedAlike_iff_addrinfo {addrinfo' : List Bytes} (h₁ : Asks env addrinfo' w w₁) (h₂ : Asks env addrinfo w' w₂)
    (hsettings : SameSettings w.task w'.task) : RoutedAlike w w₁ w' w₂ ↔ addrinfo' = addrinfo := by
  constructor
  · rintro ⟨⟨args, hargs₁, hargs₂⟩, -⟩
    have hcached := List.append_cancel_left (h₁.asked.symm.trans hargs₁)
    have hfresh := List.append_cancel_left (h₂.asked.symm.trans hargs₂)
    rw [hsettings.routeArgs, ← hcached] at hfresh
    exact (congrArg RouteArgs.addrinfo (List.singleton_inj.mp hfresh)).symm
  · rintro rfl
    refine ⟨⟨w.task.routeArgs addrinfo', h₁.asked, ?_⟩, ?_⟩
    · rw [h₂.asked, hsettings.routeArgs]
    · intro hmanager
      constructor
      · rw [h₁.routeResult, h₂.routeResult, hsettings.routeArgs, hmanager]
      · rw [h₁.state, h₂.state, hsettings.routeArgs, hmanager]
        exact routed_state env _ _ _

/-- Addresses from the cache and the same addresses when they are fresh are routed alike exactly when it makes no
difference that only the first address is wanted. -/
theorem routedAlike_iff {pushed : Bool} {ttlDefault ttlMin : Nat} (hne : addrinfo ≠ [])
    (hsettings : SameSettings w.task w'.task) (hfinds : Finds env w addrinfo)
    (hdispatch : dispatch env w = some (w₁, pushed))
    (hcallback : dnsCallbackInternal env { error := 0, addrinfo := addrinfo } ttlDefault ttlMin w' = some w₂) :
    RoutedAlike w w₁ w' w₂ ↔ ¬(w.task.firstAddrOnly = true ∧ 2 ≤ addrinfo.length) := by
  rw [← cachedAddrinfo_eq_self_iff]
  exact (asks_dispatch hne hfinds hdispatch).1.routedAlike_iff_addrinfo (asks_dnsCallbackInternal hne hcallback) hsettings

def localAddrs : List Bytes := [localhost 80, localhost 81]

def localTask (firstAddrOnly : Bool) : RouterTask :=
  { type := .tcp, host := bytesOf "host", port := 80, info := [], dnsCacheLevel := 2, dnsTtlDefault := 43200,
    dnsTtlMin := 180, endpointParams :=
      { maxConnections := 200, connectTimeout := 10000, responseTimeout := 10000, sslConnectTimeout := 10000 },
    firstAddrOnly := firstAddrOnly, insertDns := false, state := .undefined, error := 0, routeResult := .clear }

def localSurroundings : Surroundings :=
  { lib := smallLibrary, inetPton6 := fun _ => 0, inetPton4 := fun _ => 0, getaddrinfo := fun _ _ => (0, localAddrs),
    errno := 0, now := 0, created := fun _ => true, nbreak := 0, pick := fun _ => 0 }

def localWorld (firstAddrOnly : Bool) : RouterWorld :=
  { task := localTask firstAddrOnly
    cache := ((DNSCache.empty.put (bytesOf "host", 80) localAddrs 43200 180 0).map Prod.fst).getD .empty
    manager := localManager
    asked := [] }

theorem finds_localWorld (firstAddrOnly : Bool) : Finds localSurroundings (localWorld firstAddrOnly) localAddrs := by
  have hlookup : (((localWorld firstAddrOnly).task.lookup localSurroundings (localWorld firstAddrOnly).cache).bind
      fun p => p.2.bind fun e => (p.1.pool.handles e).map fun h => h.value) = some localAddrs := by
    cases firstAddrOnly <;> decide
  obtain ⟨⟨cache, handle⟩, hget, hhandle⟩ := Option.bind_eq_some_iff.mp hlookup
  obtain ⟨e, he, hmap⟩ := Option.bind_eq_some_iff.mp hhandle
  obtain ⟨h, hh, hvalue⟩ := Option.map_eq_some_iff.mp hmap
  dsimp only at he hh
  rw [he] at hget
  exact ⟨cache, e, h, hget, hh, hvalue⟩

theorem runs_localWorld (firstAddrOnly : Bool) :
    ∃ w₁ pushed w₂, dispatch localSurroundings (localWorld firstAddrOnly) = some (w₁, pushed)
      ∧ dnsCallbackInternal localSurroundings { error := 0, addrinfo := localAddrs } 43200 180 (localWorld firstAddrOnly)
        = some w₂ := by
  have hdispatch : (dispatch localSurroundings (localWorld firstAddrOnly)).isSome = true := by
    cases firstAddrOnly <;> decide
  have hcallback : (dnsCallbackInternal localSurroundings { error := 0, addrinfo := localAddrs } 43200 180
      (localWorld firstAddrOnly)).isSome = true := by
    cases firstAddrOnly <;> decide
  obtain ⟨⟨w₁, pushed⟩, h₁⟩ := Option.isSome_iff_exists.mp hdispatch
  obtain ⟨w₂, h₂⟩ := Option.isSome_iff_exists.mp hcallback
  exact ⟨w₁, pushed, w₂, h₁, h₂⟩

theorem routedAlike_localWorld :
    ∃ w₁ pushed w₂, dispatch localSurroundings (localWorld false) = some (w₁, pushed)
      ∧ dnsCallbackInternal localSurroundings { error := 0, addrinfo := localAddrs } 43200 180 (localWorld false)
        = some w₂
      ∧ RoutedAlike (localWorld false) w₁ (localWorld false) w₂ := by
  obtain ⟨w₁, pushed, w₂, hdispatch, hcallback⟩ := runs_localWorld false
  refine ⟨w₁, pushed, w₂, hdispatch, hcallback, ?_⟩
  apply (routedAlike_iff (by decide) ⟨rfl, rfl, rfl, rfl⟩ (finds_localWorld false) hdispatch hcallback).mpr
  exact fun hfirst => Bool.false_ne_true hfirst.1

/-- The first request after a miss goes to a router of all addresses, the next one to that of the first address. -/
theorem not_routedAlike_localWorld :
    ¬∀ (env : Surroundings) (w w' w₁ w₂ : RouterWorld) (addrinfo : List Bytes) (pushed : Bool) (ttlDefault ttlMin : Nat),
      addrinfo ≠ [] → SameSettings w.task w'.task → Finds env w addrinfo → dispatch env w = some (w₁, pushed) →
        dnsCallbackInternal env { error := 0, addrinfo := addrinfo } ttlDefault ttlMin w' = some w₂ →
          RoutedAlike w w₁ w' w₂ := by
  intro hall
  obtain ⟨w₁, pushed, w₂, hdispatch, hcallback⟩ := runs_localWorld true
  have hne : localAddrs ≠ [] := by decide
  have hsettings : SameSettings (localWorld true).task (localWorld true).task := ⟨rfl, rfl, rfl, rfl⟩
  have halike := hall _ _ _ _ _ _ _ _ _ hne hsettings (finds_localWorld true) hdispatch hcallback
  have hasks := (asks_dispatch hne (finds_localWorld true) hdispatch).1
  have hsame := (hasks.routedAlike_iff_addrinfo (asks_dnsCallbackInternal hne hcallback) hsettings).mp halike
  exact absurd hsame (by decide)

end WorkflowModel.Factory
