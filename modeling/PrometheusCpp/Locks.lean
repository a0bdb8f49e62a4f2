/-
# PrometheusCpp.Locks -- the mutexes of the library, and that no calls wait for each other in a circle

Every mutex is taken by a `lock_guard`, and some functions call others inside its scope: an exposer
its endpoints, a request handler and a gateway the registries, a registry its families, a family its
metrics, and a gateway its curl handle. A function is told here by the scopes it opens, as far as
the objects it meets decide them. All of this goes down one order of the mutexes, so whatever
threads have called, all calls can return (`calls_return`).

The collectables are registries; what a client's own collectable locks is not the library's.
-/
import PrometheusCpp.Lib.LockOrder

namespace PrometheusCpp

open LockOrder

namespace Locks

/-- The mutexes, each of one object. A counter, a gauge and an info have none. -/
inductive Mutex where
  | exposer (exposer : Nat)
  | gateway (gateway : Nat)
  | collectables (handler : Nat)
  | registry (registry : Nat)
  | family (family : Nat)
  | metric (metric : Nat)
  | curl (wrapper : Nat)
  deriving DecidableEq

/-! ## Core -/

/-- `Observe`, `ObserveMultiple`, `Reset` and `Collect` of a histogram or summary. -/
def metric (metric : Nat) : List (Action Mutex) := guarded (.metric metric) []

/-- `Family::CollectMetric`, of a metric that may have a mutex. -/
def collectMetric : Option Nat → List (Action Mutex)
  | none => []
  | some object => metric object

/-- `Family::Add`, `Remove` and `Has` -/
def family (family : Nat) : List (Action Mutex) := guarded (.family family) []

/-- A family with its metrics. -/
abbrev FamilyMutexes := Nat × List (Option Nat)

/-- `Family::Collect` -/
def familyCollect (family : FamilyMutexes) : List (Action Mutex) :=
  guarded (.family family.1) (family.2.flatMap collectMetric)

/-- `Registry::Add` and `Remove` -/
def registry (registry : Nat) : List (Action Mutex) := guarded (.registry registry) []

/-- A registry with its families. -/
abbrev RegistryMutexes := Nat × List FamilyMutexes

/-- `Registry::Collect` -/
def registryCollect (registry : RegistryMutexes) : List (Action Mutex) :=
  guarded (.registry registry.1) (registry.2.flatMap familyCollect)

/-! ## Pull -/

/-- `MetricsHandler::RegisterCollectable` and `RemoveCollectable` -/
def collectables (handler : Nat) : List (Action Mutex) := guarded (.collectables handler) []

/-- `MetricsHandler::handleGet`; the latency is observed at the end. -/
def handleGet (handler : Nat) (registries : List RegistryMutexes) (request_latencies : Nat) :
    List (Action Mutex) :=
  guarded (.collectables handler) (registries.flatMap registryCollect) ++ metric request_latencies

/-- An endpoint: its handler, its registry and the families of the handler. -/
structure EndpointMutexes where
  handler : Nat
  registry : Nat
  bytes_transferred_family : Nat
  num_scrapes_family : Nat
  request_latencies_family : Nat

/-- The constructor of an endpoint, and in it that of its handler. -/
def newEndpoint (e : EndpointMutexes) : List (Action Mutex) :=
  (registry e.registry ++ family e.bytes_transferred_family) ++
    (registry e.registry ++ family e.num_scrapes_family) ++
      (registry e.registry ++ family e.request_latencies_family) ++ collectables e.handler

/-- `Exposer::GetEndpointForUri`, which may have to make the endpoint. -/
def getEndpointForUri : Option EndpointMutexes → List (Action Mutex)
  | none => []
  | some endpoint => newEndpoint endpoint

/-- `Exposer::RegisterCollectable` and `RemoveCollectable` -/
def exposerCollectable (exposer : Nat) (new : Option EndpointMutexes) (handler : Nat) :
    List (Action Mutex) :=
  guarded (.exposer exposer) (getEndpointForUri new ++ collectables handler)

/-- `Exposer::RegisterAuth` -/
def registerAuth (exposer : Nat) (new : Option EndpointMutexes) : List (Action Mutex) :=
  guarded (.exposer exposer) (getEndpointForUri new)

/-! ## Push -/

/-- `CurlWrapper::performHttpRequest` and `addHttpHeader` -/
def curl (wrapper : Nat) : List (Action Mutex) := guarded (.curl wrapper) []

/-- `Gateway::RegisterCollectable` -/
def gatewayRegister (gateway : Nat) : List (Action Mutex) := guarded (.gateway gateway) []

/-- `Gateway::push`, for the collectables it gets to. -/
def push (gateway wrapper : Nat) (registries : List RegistryMutexes) : List (Action Mutex) :=
  guarded (.gateway gateway) (registries.flatMap fun r => registryCollect r ++ curl wrapper)

/-- `Gateway::async_push`; the requests are calls of other threads. -/
def asyncPush (gateway : Nat) (registries : List RegistryMutexes) : List (Action Mutex) :=
  guarded (.gateway gateway) (registries.flatMap registryCollect)

/-- The calls of clients, of the threads of the server and of the futures of a gateway. -/
inductive Calls : List (Action Mutex) → Prop
  | metric (m : Nat) : Calls (metric m)
  | family (f : Nat) : Calls (family f)
  | familyCollect (f : FamilyMutexes) : Calls (familyCollect f)
  | registry (r : Nat) : Calls (registry r)
  | registryCollect (r : RegistryMutexes) : Calls (registryCollect r)
  | handleGet (handler : Nat) (registries : List RegistryMutexes) (request_latencies : Nat) :
      Calls (handleGet handler registries request_latencies)
  | exposerCollectable (exposer : Nat) (new : Option EndpointMutexes) (handler : Nat) :
      Calls (exposerCollectable exposer new handler)
  | registerAuth (exposer : Nat) (new : Option EndpointMutexes) : Calls (registerAuth exposer new)
  | curl (wrapper : Nat) : Calls (curl wrapper)
  | gatewayRegister (gateway : Nat) : Calls (gatewayRegister gateway)
  | push (gateway wrapper : Nat) (registries : List RegistryMutexes) :
      Calls (push gateway wrapper registries)
  | asyncPush (gateway : Nat) (registries : List RegistryMutexes) : Calls (asyncPush gateway registries)

/-! ## The order -/

def Mutex.rank : Mutex → ℕ
  | .exposer _ => 0
  | .gateway _ => 0
  | .collectables _ => 1
  | .registry _ => 2
  | .family _ => 3
  | .metric _ => 4
  | .curl _ => 5

theorem Mutex.rank_lt (mutex : Mutex) : mutex.rank < 6 := by
  cases mutex <;> simp [rank]

theorem from_metric (m : Nat) : From Mutex.rank 4 (metric m) := From.guarded rfl (from_nil _)

theorem from_collectMetric (m : Option Nat) : From Mutex.rank 4 (collectMetric m) := by
  cases m with
  | none => exact from_nil _
  | some object => exact from_metric object

theorem from_family (f : Nat) : From Mutex.rank 3 (family f) := From.guarded rfl (from_nil _)

theorem from_familyCollect (f : FamilyMutexes) : From Mutex.rank 3 (familyCollect f) :=
  From.guarded rfl (From.flatMap _ fun m _ => from_collectMetric m)

theorem from_registry (r : Nat) : From Mutex.rank 2 (registry r) := From.guarded rfl (from_nil _)

theorem from_registryCollect (r : RegistryMutexes) : From Mutex.rank 2 (registryCollect r) :=
  From.guarded rfl (From.flatMap _ fun f _ => from_familyCollect f)

theorem from_collectables (handler : Nat) : From Mutex.rank 1 (collectables handler) :=
  From.guarded rfl (from_nil _)

theorem from_newEndpoint (e : EndpointMutexes) : From Mutex.rank 1 (newEndpoint e) := by
  have hfamily : ∀ f, From Mutex.rank 1 (registry e.registry ++ family f) := fun f =>
    ((from_registry e.registry).mono (by decide)).append ((from_family f).mono (by decide))
  exact (((hfamily _).append (hfamily _)).append (hfamily _)).append (from_collectables e.handler)

theorem from_getEndpointForUri (new : Option EndpointMutexes) :
    From Mutex.rank 1 (getEndpointForUri new) := by
  cases new with
  | none => exact from_nil _
  | some endpoint => exact from_newEndpoint endpoint

theorem from_curl (wrapper : Nat) : From Mutex.rank 5 (curl wrapper) := From.guarded rfl (from_nil _)

/-- Every function takes its locks down the order. -/
theorem orderly_of_calls {actions : List (Action Mutex)} (h : Calls actions) :
    Orderly Mutex.rank [] actions := by
  cases h with
  | metric m => exact (from_metric m).orderly
  | family f => exact (from_family f).orderly
  | familyCollect f => exact (from_familyCollect f).orderly
  | registry r => exact (from_registry r).orderly
  | registryCollect r => exact (from_registryCollect r).orderly
  | handleGet handler registries request_latencies =>
      have hcollect : From Mutex.rank 1
          (guarded (.collectables handler) (registries.flatMap registryCollect)) :=
        From.guarded rfl (From.flatMap _ fun r _ => from_registryCollect r)
      exact (hcollect.append ((from_metric request_latencies).mono (by decide))).orderly
  | exposerCollectable exposer new handler =>
      have hscope : From Mutex.rank 0 (exposerCollectable exposer new handler) :=
        From.guarded rfl ((from_getEndpointForUri new).append (from_collectables handler))
      exact hscope.orderly
  | registerAuth exposer new =>
      have hscope : From Mutex.rank 0 (registerAuth exposer new) :=
        From.guarded rfl (from_getEndpointForUri new)
      exact hscope.orderly
  | curl wrapper => exact (from_curl wrapper).orderly
  | gatewayRegister gateway =>
      have hscope : From Mutex.rank 0 (gatewayRegister gateway) := From.guarded rfl (from_nil _)
      exact hscope.orderly
  | push gateway wrapper registries =>
      have hbody : ∀ r, From Mutex.rank 1 (registryCollect r ++ curl wrapper) := fun r =>
        ((from_registryCollect r).mono (by decide)).append ((from_curl wrapper).mono (by decide))
      have hscope : From Mutex.rank 0 (push gateway wrapper registries) :=
        From.guarded rfl (From.flatMap _ fun r _ => hbody r)
      exact hscope.orderly
  | asyncPush gateway registries =>
      have hscope : From Mutex.rank 0 (asyncPush gateway registries) :=
        From.guarded rfl (From.flatMap _ fun r _ => (from_registryCollect r).mono (by decide))
      exact hscope.orderly

/-! ## No deadlock -/

/-- Whatever any threads have called, and however far they have got, all calls can return. -/
theorem calls_return {ι : Type} [DecidableEq ι] [Fintype ι] {s : State ι Mutex}
    (h : Reachable Calls s) :
    ∃ s', Relation.ReflTransGen Goes s s' ∧ ∀ t, s'.rest t = [] :=
  Reachable.all_return (fun _ => orderly_of_calls) Mutex.rank_lt h

/-- A gateway has a registry locked that a scrape waits for. -/
theorem calls_return_of_two : ∃ s s' : State Bool Mutex,
    s.holder (.registry 7) = some true ∧ s.holder (.collectables 1) = some false ∧
      Relation.ReflTransGen Goes s s' ∧ ∀ t, s'.rest t = [] := by
  have hpush : Reachable Calls (ι := Bool) _ := .call (t := true) .new rfl (.push 0 0 [(7, [])])
  have hgateway := hpush.goes (.acquire (t := true) rfl rfl)
  have hregistry := hgateway.goes (.acquire (t := true) rfl rfl)
  have hget := hregistry.call (t := false) rfl (.handleGet 1 [(7, [])] 0)
  have hcollectables := hget.goes (.acquire (t := false) rfl rfl)
  obtain ⟨s', hgoes, hdone⟩ := calls_return hcollectables
  exact ⟨_, s', rfl, rfl, hgoes, hdone⟩

end Locks

end PrometheusCpp
