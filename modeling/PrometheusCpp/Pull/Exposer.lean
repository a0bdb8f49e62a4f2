/-
# PrometheusCpp.Pull.Exposer -- endpoints and their collectables, `exposer.cc`, `endpoint.cc`,
# `handler.cc` and `metrics_collector.cc`

An exposer makes an endpoint for a URI when it is first asked for one, be it only to remove
something. The endpoint has a registry of its own, which is the first of its collectables and which
nobody else has a pointer to. Collectables are known by their control blocks; they are destroyed by
their owners at any time, and never come back.

What a scrape returns is told from the calls alone (`scrape_run`): the own registry and the living
collectables that were registered at the URI and not removed afterwards, in the order of their
registrations.
-/
import PrometheusCpp.Core.ClientMetric
import PrometheusCpp.Lib.WeakList
import PrometheusCpp.Pull.BasicAuth
import Mathlib.Data.List.Induction

namespace PrometheusCpp

open ByteString WeakList

/-! ## The code -/

/-- What a weak pointer of an endpoint points to: its own registry or a collectable of a client. -/
inductive Collectable where
  | registry (uri : Bytes)
  | client (ptr : WeakPtr)
  deriving DecidableEq

/-- `CollectMetrics` -/
def collectMetrics (expired : Collectable → Bool) (collect : Collectable → List MetricFamily) :
    List Collectable → List MetricFamily
  | [] => []
  | wcollectable :: rest =>
    match lock expired wcollectable with
    | none => collectMetrics expired collect rest
    | some collectable => collect collectable ++ collectMetrics expired collect rest

structure MetricsHandler where
  collectables_ : List Collectable := []

namespace MetricsHandler

def registerCollectable (expired : Collectable → Bool) (h : MetricsHandler)
    (collectable : Collectable) : MetricsHandler where
  collectables_ := purge expired h.collectables_ ++ [collectable]

def removeCollectable (expired : Collectable → Bool) (h : MetricsHandler)
    (collectable : Collectable) : MetricsHandler where
  collectables_ := removeLocked expired collectable h.collectables_

/-- The families that `handleGet` serializes. -/
def handleGet (expired : Collectable → Bool) (collect : Collectable → List MetricFamily)
    (h : MetricsHandler) : List MetricFamily := collectMetrics expired collect h.collectables_

end MetricsHandler

structure Endpoint (m : Type → Type) where
  uri_ : Bytes
  metrics_handler_ : MetricsHandler
  auth_handler_ : Option (BasicAuthHandler m) := none

namespace Endpoint

variable {m : Type → Type}

/-- The endpoint registers its registry. -/
def new (expired : Collectable → Bool) (uri : Bytes) : Endpoint m where
  uri_ := uri
  metrics_handler_ := MetricsHandler.registerCollectable expired {} (.registry uri)

def registerCollectable (expired : Collectable → Bool) (collectable : Collectable)
    (e : Endpoint m) : Endpoint m :=
  { e with metrics_handler_ := e.metrics_handler_.registerCollectable expired collectable }

def removeCollectable (expired : Collectable → Bool) (collectable : Collectable)
    (e : Endpoint m) : Endpoint m :=
  { e with metrics_handler_ := e.metrics_handler_.removeCollectable expired collectable }

def registerAuth (authCB : AuthFunc m) (realm : Bytes) (e : Endpoint m) : Endpoint m :=
  { e with auth_handler_ := some ⟨authCB, realm⟩ }

end Endpoint

structure Exposer (m : Type → Type) where
  endpoints_ : List (Endpoint m) := []

namespace Exposer

variable {m : Type → Type}

/-- `GetEndpointForUri`, and what is done with the endpoint it returns: the first one with this URI,
or a new one behind the others. -/
def withEndpoint (expired : Collectable → Bool) (uri : Bytes) (f : Endpoint m → Endpoint m) :
    List (Endpoint m) → List (Endpoint m)
  | [] => [f (.new expired uri)]
  | endpoint :: rest =>
    if endpoint.uri_ = uri then f endpoint :: rest
    else endpoint :: withEndpoint expired uri f rest

/-- The calls of an exposer, and the end of a collectable. -/
inductive Op (m : Type → Type) where
  | registerCollectable (collectable : WeakPtr) (uri : Bytes)
  | removeCollectable (collectable : WeakPtr) (uri : Bytes)
  | registerAuth (authCB : AuthFunc m) (realm uri : Bytes)
  | destroy (collectable : WeakPtr)

/-- The exposer and the collectables that are gone. -/
structure State (m : Type → Type) where
  exposer : Exposer m := {}
  destroyed : WeakPtr → Bool

/-- An endpoint keeps its registry alive. -/
def State.expired (s : State m) : Collectable → Bool
  | .registry _ => false
  | .client ptr => s.destroyed ptr

def State.withEndpoint (s : State m) (uri : Bytes) (f : Endpoint m → Endpoint m) : State m :=
  { s with exposer := ⟨Exposer.withEndpoint s.expired uri f s.exposer.endpoints_⟩ }

def step (s : State m) : Op m → State m
  | .registerCollectable collectable uri =>
    s.withEndpoint uri (.registerCollectable s.expired (.client collectable))
  | .removeCollectable collectable uri =>
    s.withEndpoint uri (.removeCollectable s.expired (.client collectable))
  | .registerAuth authCB realm uri => s.withEndpoint uri (.registerAuth authCB realm)
  | .destroy collectable =>
    { s with destroyed := fun ptr => ptr == collectable || s.destroyed ptr }

def run (s : State m) (ops : List (Op m)) : State m := ops.foldl step s

/-- The endpoint whose handler the server has for a URI. -/
def State.endpointAt (s : State m) (uri : Bytes) : Option (Endpoint m) :=
  s.exposer.endpoints_.find? fun endpoint => endpoint.uri_ == uri

/-- What a scrape of the URI returns, if it has an endpoint. -/
def State.scrape (s : State m) (collect : Collectable → List MetricFamily) (uri : Bytes) :
    Option (List MetricFamily) :=
  (s.endpointAt uri).map fun endpoint => endpoint.metrics_handler_.handleGet s.expired collect

/-! ## What the calls say -/

/-- Whether the call asks for the endpoint of the URI. -/
def Op.uses (uri : Bytes) : Op m → Bool
  | .registerCollectable _ u => u == uri
  | .removeCollectable _ u => u == uri
  | .registerAuth _ _ u => u == uri
  | .destroy _ => false

def Op.removes (ptr : WeakPtr) (uri : Bytes) : Op m → Bool
  | .removeCollectable collectable u => collectable == ptr && u == uri
  | _ => false

/-- The registrations at the URI that no removal follows. -/
def registered (uri : Bytes) : List (Op m) → List WeakPtr
  | [] => []
  | .registerCollectable collectable u :: rest =>
    if u = uri ∧ rest.any (Op.removes collectable uri) = false then
      collectable :: registered uri rest
    else registered uri rest
  | _ :: rest => registered uri rest

/-- A call erases what it removes and adds what it registers. -/
theorem registered_concat (uri : Bytes) (ops : List (Op m)) (op : Op m) :
    registered uri (ops ++ [op]) =
      ((registered uri ops).filter fun ptr => !op.removes ptr uri) ++ registered uri [op] := by
  induction ops with
  | nil => simp [registered]
  | cons first rest ih =>
      cases first with
      | registerCollectable collectable u =>
          simp only [List.cons_append, registered, List.any_append, List.any_cons, List.any_nil,
            Bool.or_false, ih]
          by_cases hkept : u = uri ∧ rest.any (Op.removes collectable uri) = false
          · cases hremoves : op.removes collectable uri <;> simp [hkept, hremoves]
          · have hnot : ¬ (u = uri ∧
                (rest.any (Op.removes collectable uri) || op.removes collectable uri) = false) := by
              rintro ⟨hu, hany⟩
              exact hkept ⟨hu, (Bool.or_eq_false_iff.mp hany).1⟩
            rw [if_neg hkept, if_neg hnot]
      | removeCollectable collectable u => simpa [registered] using ih
      | registerAuth authCB realm u => simpa [registered] using ih
      | destroy collectable => simpa [registered] using ih

theorem registered_eq_nil {uri : Bytes} {ops : List (Op m)} (h : ops.any (Op.uses uri) = false) :
    registered uri ops = [] := by
  induction ops with
  | nil => rfl
  | cons first rest ih =>
      obtain ⟨hfirst, hrest⟩ := Bool.or_eq_false_iff.mp h
      cases first with
      | registerCollectable collectable u =>
          have hu : u ≠ uri := by simpa [Op.uses] using hfirst
          rw [registered, if_neg fun hkept => hu hkept.1, ih hrest]
      | removeCollectable collectable u => exact ih hrest
      | registerAuth authCB realm u => exact ih hrest
      | destroy collectable => exact ih hrest

/-- A call at another URI registers nothing here and removes nothing. -/
theorem registered_concat_of_not_uses {uri : Bytes} {op : Op m} (h : op.uses uri = false)
    (ops : List (Op m)) : registered uri (ops ++ [op]) = registered uri ops := by
  have hremoves : ∀ ptr, op.removes ptr uri = false := by
    intro ptr
    cases op <;> simp_all [Op.uses, Op.removes]
  have hregisters : registered uri [op] = [] := registered_eq_nil (by simpa using h)
  rw [registered_concat, hregisters, List.append_nil]
  simp [hremoves]

section Concat

variable (uri : Bytes) (ops : List (Op m)) (collectable : WeakPtr)

theorem registered_concat_registerCollectable :
    registered uri (ops ++ [.registerCollectable collectable uri]) =
      registered uri ops ++ [collectable] := by
  rw [registered_concat]
  simp [Op.removes, registered]

theorem registered_concat_removeCollectable :
    registered uri (ops ++ [.removeCollectable collectable uri]) =
      (registered uri ops).filter fun ptr => ptr ≠ collectable := by
  rw [registered_concat]
  simp [Op.removes, registered, eq_comm, beq_eq_decide]

theorem registered_concat_registerAuth (authCB : Bytes → Bytes → m Bool) (realm : Bytes) :
    registered uri (ops ++ [.registerAuth authCB realm uri]) = registered uri ops := by
  rw [registered_concat]
  simp [Op.removes, registered]

end Concat

/-! ## One call -/

theorem find?_withEndpoint (expired : Collectable → Bool) {f : Endpoint m → Endpoint m}
    (hf : ∀ endpoint, (f endpoint).uri_ = endpoint.uri_) (uri u : Bytes)
    (endpoints : List (Endpoint m)) :
    (withEndpoint expired uri f endpoints).find? (fun endpoint => endpoint.uri_ == u) =
      if u = uri then
        some (f ((endpoints.find? fun endpoint => endpoint.uri_ == uri).getD (.new expired uri)))
      else endpoints.find? fun endpoint => endpoint.uri_ == u := by
  induction endpoints with
  | nil =>
      have hnew : (f (.new expired uri)).uri_ = uri := hf _
      by_cases hu : u = uri
      · simp [withEndpoint, hnew, hu]
      · simp [withEndpoint, hnew, hu, Ne.symm hu]
  | cons endpoint rest ih =>
      unfold withEndpoint
      by_cases hfound : endpoint.uri_ = uri
      · by_cases hu : u = uri
        · simp [hf, hfound, hu]
        · simp [hf, hfound, hu, Ne.symm hu]
      · rw [if_neg hfound, List.find?_cons]
        by_cases hu : u = uri
        · subst hu
          have hnot : (endpoint.uri_ == u) = false := by simpa using hfound
          simpa [hnot] using ih
        · rw [ih, if_neg hu, if_neg hu, List.find?_cons]

/-- The endpoints are those the calls asked for, and what can be locked of their collectables is what
the calls registered and did not remove. -/
structure Serves (s : State m) (ops : List (Op m)) : Prop where
  none_iff : ∀ uri, s.endpointAt uri = none ↔ ops.any (Op.uses uri) = false
  living : ∀ uri endpoint, s.endpointAt uri = some endpoint →
    SameLiving s.expired endpoint.metrics_handler_.collectables_
      (.registry uri :: (registered uri ops).map .client)

/-- A call to the endpoint of one URI keeps what the other endpoints have. -/
theorem Serves.withEndpoint {s : State m} {ops : List (Op m)} (h : Serves s ops) {op : Op m}
    {uri : Bytes} {f : Endpoint m → Endpoint m}
    (hf : ∀ endpoint, (f endpoint).uri_ = endpoint.uri_)
    (huses : ∀ u, op.uses u = (uri == u))
    (hself : ∀ endpoint : Endpoint m,
      SameLiving s.expired endpoint.metrics_handler_.collectables_
        (.registry uri :: (registered uri ops).map .client) →
      SameLiving s.expired (f endpoint).metrics_handler_.collectables_
        (.registry uri :: (registered uri (ops ++ [op])).map .client)) :
    Serves (s.withEndpoint uri f) (ops ++ [op]) := by
  have hat : ∀ u, (s.withEndpoint uri f).endpointAt u =
      if u = uri then some (f ((s.endpointAt uri).getD (.new s.expired uri)))
      else s.endpointAt u := fun u => find?_withEndpoint s.expired hf uri u _
  have hany : ∀ u, (ops ++ [op]).any (Op.uses u) = (ops.any (Op.uses u) || uri == u) := by
    intro u
    rw [List.any_append, List.any_cons, List.any_nil, Bool.or_false, huses]
  constructor
  · intro u
    rw [hat, hany]
    by_cases hu : u = uri
    · simp [hu]
    · simp [hu, Ne.symm hu, h.none_iff]
  · intro u endpoint hendpoint
    rw [hat] at hendpoint
    split_ifs at hendpoint with hu
    · subst hu
      obtain rfl := Option.some.inj hendpoint
      apply hself
      cases hfound : s.endpointAt u with
      | some endpoint => exact h.living u endpoint hfound
      | none =>
          rw [registered_eq_nil ((h.none_iff u).mp hfound)]
          rfl
    · rw [registered_concat_of_not_uses (by simpa [huses] using Ne.symm hu)]
      exact h.living u endpoint hendpoint

/-- The registry of the endpoint is not among what a removal erases. -/
theorem filter_map_client (uri : Bytes) (ptrs : List WeakPtr) (collectable : WeakPtr) :
    (Collectable.registry uri :: ptrs.map .client).filter
        (fun candidate => candidate ≠ .client collectable) =
      .registry uri :: (ptrs.filter fun ptr => ptr ≠ collectable).map .client := by
  rw [List.filter_cons_of_pos (by simp), List.filter_map]
  congr 3
  funext ptr
  simp

/-- A destruction changes no endpoint, only what can be locked. -/
theorem Serves.destroy {s : State m} {ops : List (Op m)} (h : Serves s ops)
    (collectable : WeakPtr) :
    Serves (step s (.destroy collectable)) (ops ++ [.destroy collectable]) := by
  constructor
  · intro u
    have hany : (ops ++ [Op.destroy collectable]).any (Op.uses u) = ops.any (Op.uses u) := by
      simp [Op.uses]
    rw [hany]
    exact h.none_iff u
  · intro u endpoint hendpoint
    rw [registered_concat_of_not_uses rfl]
    refine (h.living u endpoint hendpoint).mono fun p hp => ?_
    cases p with
    | registry uri => exact hp
    | client ptr => exact Bool.or_eq_true_iff.mpr (.inr hp)

theorem Serves.step {s : State m} {ops : List (Op m)} (h : Serves s ops) (op : Op m) :
    Serves (step s op) (ops ++ [op]) := by
  cases op with
  | registerCollectable collectable uri =>
      refine h.withEndpoint (fun _ => rfl) (fun _ => rfl) fun endpoint hsame => ?_
      rw [registered_concat_registerCollectable, List.map_append, ← List.cons_append]
      exact hsame.push (.client collectable)
  | removeCollectable collectable uri =>
      refine h.withEndpoint (fun _ => rfl) (fun _ => rfl) fun endpoint hsame => ?_
      rw [registered_concat_removeCollectable, ← filter_map_client]
      exact hsame.remove (.client collectable)
  | registerAuth authCB realm uri =>
      refine h.withEndpoint (fun _ => rfl) (fun _ => rfl) fun endpoint hsame => ?_
      rw [registered_concat_registerAuth]
      exact hsame
  | destroy collectable => exact h.destroy collectable

/-! ## Runs -/

theorem serves_run (destroyed : WeakPtr → Bool) (ops : List (Op m)) :
    Serves (run { destroyed } ops) ops := by
  induction ops using List.reverseRecOn with
  | nil =>
      constructor
      · exact fun uri => iff_of_true rfl rfl
      · intro uri endpoint hendpoint
        exact absurd hendpoint.symm (Option.some_ne_none _)
  | append_singleton ops op ih =>
      rw [run, List.foldl_append]
      exact ih.step op

theorem collectMetrics_eq (expired : Collectable → Bool)
    (collect : Collectable → List MetricFamily) (collectables : List Collectable) :
    collectMetrics expired collect collectables =
      (living expired collectables).flatMap collect := by
  induction collectables with
  | nil => rfl
  | cons wcollectable rest ih =>
      unfold collectMetrics living
      rw [List.filterMap_cons]
      cases lock expired wcollectable with
      | none => exact ih
      | some collectable => rw [List.flatMap_cons, ih, living]

/-- A scrape of a URI that was asked for returns the families of the endpoint's own registry and
then those of every living collectable that was registered there and not removed afterwards, once
for each registration and in the order of the registrations. -/
theorem scrape_run (destroyed : WeakPtr → Bool) (ops : List (Op m))
    (collect : Collectable → List MetricFamily) (uri : Bytes) :
    (run { destroyed } ops).scrape collect uri =
      if ops.any (Op.uses uri) then
        some (collect (.registry uri) ++
          ((registered uri ops).filter fun ptr => !(run { destroyed } ops).destroyed ptr).flatMap
            fun ptr => collect (.client ptr))
      else none := by
  have hserves := serves_run destroyed ops
  unfold State.scrape
  cases hendpoint : (run { destroyed } ops).endpointAt uri with
  | none =>
      rw [if_neg (by rw [(hserves.none_iff uri).mp hendpoint]; exact Bool.false_ne_true),
        Option.map_none]
  | some endpoint =>
      have hany : ops.any (Op.uses uri) = true := by
        rw [← Bool.not_eq_false, ← hserves.none_iff uri, hendpoint]
        exact Option.some_ne_none _
      have hliving : living (run { destroyed } ops).expired
          (.registry uri :: (registered uri ops).map .client) =
            .registry uri :: ((registered uri ops).filter
              fun ptr => !(run { destroyed } ops).destroyed ptr).map .client := by
        rw [living_eq_filter, List.filter_cons_of_pos rfl, List.filter_map]
        rfl
      rw [if_pos hany, Option.map_some, MetricsHandler.handleGet, collectMetrics_eq,
        hserves.living uri endpoint hendpoint, hliving, List.flatMap_cons, List.flatMap_map]

end Exposer

end PrometheusCpp
