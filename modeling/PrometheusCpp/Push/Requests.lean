/-
# PrometheusCpp.Push.Requests -- the requests of a gateway, at once and one after the other

`push` sends the request of one living collectable after the other and returns with the first bad
status code; `async_push` sends them all and returns the last bad one. They agree, on what is sent
and on what is returned, exactly when no request with another one behind it gets a bad status code
(`push_agree_iff`).
-/
import PrometheusCpp.Core.Exposition
import PrometheusCpp.Lib.TaskRuns
import PrometheusCpp.Push.Gateway
import Mathlib.Data.List.Enum

namespace PrometheusCpp

open ByteString TaskRuns

inductive HttpMethod where
  | post
  | put
  | delete
  deriving DecidableEq

/-- The arguments of `performHttpRequest`. -/
structure Request where
  method : HttpMethod
  uri : Bytes
  body : Bytes := []
  deriving DecidableEq

namespace Gateway

def delete (g : Gateway) : Request := { method := .delete, uri := g.jobUri_ }

def deleteForInstance (g : Gateway) : Request :=
  { method := .delete, uri := g.jobUri_ ++ g.labels_ }

def badStatus (status_code : Int) : Bool := status_code < 100 || status_code ≥ 400

section Push

/- What `Collect` returns for a collectable that can be locked, and the status code of the request
for the entry with this index. -/
variable (g : Gateway) (method : HttpMethod) (collect : WeakPtr → Option (List MetricFamily))
  (performHttpRequest : Nat → Request → Int)

def request (wcollectable : WeakPtr × Bytes) (metrics : List MetricFamily) : Request :=
  let body := TextSerializer.serialize metrics
  let uri := g.getUri wcollectable
  { method, uri, body }

/-- The loop of `push` from the entry with the index `i` on: the requests and the status code. -/
def pushLoop (i : Nat) : List (WeakPtr × Bytes) → List Request × Int
  | [] => ([], 200)
  | wcollectable :: rest =>
    match collect wcollectable.1 with
    | none => pushLoop (i + 1) rest
    | some metrics =>
      let request := g.request method wcollectable metrics
      let status_code := performHttpRequest i request
      if badStatus status_code then ([request], status_code)
      else
        let (requests, final_status_code) := pushLoop (i + 1) rest
        (request :: requests, final_status_code)

def push : List Request × Int := pushLoop g method collect performHttpRequest 0 g.collectables_

/-- The loop of `async_push`: what the futures will send, and for which entry. -/
def futuresLoop (i : Nat) : List (WeakPtr × Bytes) → List (Nat × Request)
  | [] => []
  | wcollectable :: rest =>
    match collect wcollectable.1 with
    | none => futuresLoop (i + 1) rest
    | some metrics => (i, g.request method wcollectable metrics) :: futuresLoop (i + 1) rest

def reduceFutures (status_codes : List Int) : Int :=
  status_codes.foldl
    (fun final_status_code status_code =>
      if badStatus status_code then status_code else final_status_code) 200

/-- The requests are those of the futures, which run in any order; their status codes are taken in
the order of the futures. -/
def asyncPush : List Request × Int :=
  let futures := futuresLoop g method collect 0 g.collectables_
  (futures.map Prod.snd,
    reduceFutures (futures.map fun future => performHttpRequest future.1 future.2))

end Push

/-! ## Agreement -/

section Agreement

variable (g : Gateway) (method : HttpMethod) (collect : WeakPtr → Option (List MetricFamily))
  (performHttpRequest : Nat → Request → Int)

/-- The request for an entry and its status code, if the collectable is alive. -/
def answered (entry : (WeakPtr × Bytes) × Nat) : Option (Request × Int) :=
  (collect entry.1.1).map fun metrics =>
    (g.request method entry.1 metrics,
      performHttpRequest entry.2 (g.request method entry.1 metrics))

theorem pushLoop_eq (entries : List (WeakPtr × Bytes)) : ∀ i,
    pushLoop g method collect performHttpRequest i entries =
      untilFailure badStatus 200
        ((entries.zipIdx i).filterMap (g.answered method collect performHttpRequest)) := by
  induction entries with
  | nil => intro i; rfl
  | cons wcollectable rest ih =>
      intro i
      rw [List.zipIdx_cons, List.filterMap_cons, pushLoop]
      cases hcollect : collect wcollectable.1 with
      | none => simp only [answered, hcollect, Option.map_none, ih]
      | some metrics => simp only [answered, hcollect, Option.map_some, untilFailure, ih]

theorem futuresLoop_eq (entries : List (WeakPtr × Bytes)) : ∀ i,
    (futuresLoop g method collect i entries).map
        (fun future => (future.2, performHttpRequest future.1 future.2)) =
      (entries.zipIdx i).filterMap (g.answered method collect performHttpRequest) := by
  induction entries with
  | nil => intro i; rfl
  | cons wcollectable rest ih =>
      intro i
      rw [List.zipIdx_cons, List.filterMap_cons, futuresLoop]
      cases hcollect : collect wcollectable.1 with
      | none => simp only [answered, hcollect, Option.map_none, ih]
      | some metrics => simp only [answered, hcollect, Option.map_some, List.map_cons, ih]

/-- The tasks of a push: the requests of the living collectables and their status codes. -/
def tasks : List (Request × Int) :=
  g.collectables_.zipIdx.filterMap (g.answered method collect performHttpRequest)

theorem asyncPush_eq :
    g.asyncPush method collect performHttpRequest =
      ((g.tasks method collect performHttpRequest).map Prod.fst,
        lastFailure badStatus 200 ((g.tasks method collect performHttpRequest).map Prod.snd)) := by
  rw [tasks, ← futuresLoop_eq, List.map_map, List.map_map]
  rfl

/-- Both ways of pushing send the same requests, in whatever order the futures run, and return the
same status code, if and only if of two living collectables the one in front gets no bad code. -/
theorem push_agree_iff :
    (∀ performed : List Request,
        performed.Perm (g.asyncPush method collect performHttpRequest).1 →
        (g.push method collect performHttpRequest).1.Perm performed ∧
          (g.push method collect performHttpRequest).2 =
            (g.asyncPush method collect performHttpRequest).2) ↔
      g.collectables_.zipIdx.Pairwise fun entry other =>
        ∀ metrics, collect entry.1.1 = some metrics → (collect other.1.1).isSome = true →
          badStatus (performHttpRequest entry.2 (g.request method entry.1 metrics)) = false := by
  have hcondition : OnlyLastFails badStatus (g.tasks method collect performHttpRequest) ↔
      g.collectables_.zipIdx.Pairwise fun entry other =>
        ∀ metrics, collect entry.1.1 = some metrics → (collect other.1.1).isSome = true →
          badStatus (performHttpRequest entry.2 (g.request method entry.1 metrics)) = false := by
    rw [OnlyLastFails, tasks, List.pairwise_filterMap]
    apply iff_of_eq
    congr 1
    funext entry other
    simp [answered, Option.isSome_iff_exists]
  have hpush : g.push method collect performHttpRequest =
      untilFailure badStatus 200 (g.tasks method collect performHttpRequest) :=
    pushLoop_eq g method collect performHttpRequest g.collectables_ 0
  rw [← hcondition, hpush, asyncPush_eq]
  constructor
  · intro h
    exact untilFailure_perm_iff.mp (h _ (List.Perm.refl _)).1
  · intro h performed hperformed
    rw [untilFailure_eq h]
    exact ⟨hperformed.symm, rfl⟩

/-- Of two collectables the first gets 500 and the second 404: one request and 500 in one way, two
requests and 404 in the other. -/
theorem push_not_always_agree :
    ¬ ∀ (g : Gateway) (method : HttpMethod) (collect : WeakPtr → Option (List MetricFamily))
      (performHttpRequest : Nat → Request → Int) (performed : List Request),
      performed.Perm (g.asyncPush method collect performHttpRequest).1 →
      (g.push method collect performHttpRequest).1.Perm performed ∧
        (g.push method collect performHttpRequest).2 =
          (g.asyncPush method collect performHttpRequest).2 := by
  intro h
  have hcode := (h { jobUri_ := [], labels_ := [], collectables_ := [(1, []), (2, [])] } .post
    (fun _ => some []) (fun i _ => if i = 0 then 500 else 404) _ (List.Perm.refl _)).2
  exact absurd hcode (by decide)

end Agreement

end Gateway

end PrometheusCpp
