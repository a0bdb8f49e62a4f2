/-
# PrometheusCpp.Push.GatewayRuns -- what a gateway sends over a whole run

A gateway is used by many: collectables are registered and destroyed, pushed at once or by futures,
and deleted. The futures of a push hold their requests and send them at any later time, in any
order. What is sent is told from the calls alone (`run_requests`): each call asks for the requests
of the collectables alive then, under the labels they were registered with and with what they
collected then, and nothing that was asked for is lost, changed or sent twice.
-/
import PrometheusCpp.Lib.Linearization
import PrometheusCpp.Lib.WeakList
import PrometheusCpp.Push.Requests

namespace PrometheusCpp

open ByteString Linearization TaskRuns WeakList

namespace Gateway

def getInstanceLabel (hostname : Bytes) : List (Bytes × Bytes) :=
  if hostname = [] then [] else [(ascii "instance", hostname)]

/-! ## Runs -/

/-- The calls of a gateway, and the end of a collectable. `Push` and `PushAdd` are a push with POST
and with PUT; what `collect` finds for each pointer, and the status codes of the requests in their
order, are part of the call. -/
inductive Call where
  | registerCollectable (collectable : WeakPtr) (labels : Option (List (Bytes × Bytes)))
  | push (method : HttpMethod) (collect : WeakPtr → Option (List MetricFamily))
      (status_code : Nat → Request → Int)
  | asyncPush (method : HttpMethod) (collect : WeakPtr → Option (List MetricFamily))
  | delete
  | asyncDelete
  | deleteForInstance
  | asyncDeleteForInstance
  | destroy (collectable : WeakPtr)

/-- A gateway, the pointers that cannot be locked, the requests of the futures that have not run,
and the requests performed. -/
structure State where
  gateway : Gateway
  expired : WeakPtr → Bool
  futures : List Request := []
  performed : List Request := []

/-- How many requests a push has made when it comes to the entry with the index. -/
def requestsBefore (g : Gateway) (collect : WeakPtr → Option (List MetricFamily)) (i : Nat) : Nat :=
  (g.collectables_.take i).countP fun wcollectable => (collect wcollectable.1).isSome

/-- What a push cannot lock is gone, for good: it was before the push or went during it. -/
inductive Step : State → Option Call → State → Prop
  | registerCollectable (s : State) (collectable : WeakPtr)
      (labels : Option (List (Bytes × Bytes))) :
      Step s (some (.registerCollectable collectable labels))
        { s with gateway := s.gateway.registerCollectable s.expired collectable labels }
  | push (s : State) (method : HttpMethod) (collect : WeakPtr → Option (List MetricFamily))
      (status_code : Nat → Request → Int)
      (gone : ∀ collectable, s.expired collectable = true → collect collectable = none) :
      Step s (some (.push method collect status_code))
        { s with
          expired := fun collectable => (collect collectable).isNone
          performed := s.performed ++ (s.gateway.push method collect fun i request =>
            status_code (s.gateway.requestsBefore collect i) request).1 }
  | asyncPush (s : State) (method : HttpMethod) (collect : WeakPtr → Option (List MetricFamily))
      (gone : ∀ collectable, s.expired collectable = true → collect collectable = none) :
      Step s (some (.asyncPush method collect))
        { s with
          expired := fun collectable => (collect collectable).isNone
          futures := s.futures ++
            (futuresLoop s.gateway method collect 0 s.gateway.collectables_).map Prod.snd }
  | delete (s : State) : Step s (some .delete) { s with performed := s.performed ++ [s.gateway.delete] }
  | asyncDelete (s : State) :
      Step s (some .asyncDelete) { s with futures := s.futures ++ [s.gateway.delete] }
  | deleteForInstance (s : State) :
      Step s (some .deleteForInstance)
        { s with performed := s.performed ++ [s.gateway.deleteForInstance] }
  | asyncDeleteForInstance (s : State) :
      Step s (some .asyncDeleteForInstance)
        { s with futures := s.futures ++ [s.gateway.deleteForInstance] }
  | destroy (s : State) (collectable : WeakPtr) :
      Step s (some (.destroy collectable))
        { s with expired := fun other => other == collectable || s.expired other }
  | future {s : State} {before after : List Request} {request : Request}
      (waiting : s.futures = before ++ request :: after) :
      Step s none
        { s with futures := before ++ after, performed := s.performed ++ [request] }

/-! ## What the calls ask for -/

/-- The registrations, in their order. -/
def registered (calls : List Call) : List (WeakPtr × Option (List (Bytes × Bytes))) :=
  calls.filterMap fun
    | .registerCollectable collectable labels => some (collectable, labels)
    | _ => none

section Asked

variable (url jobname : Bytes) (labels : List (Bytes × Bytes))

/-- The label of the job. -/
def jobKey : List (Bytes × Bytes) := [(ascii "job", jobname)]

/-- The URI for the labels behind those of the gateway. -/
def uriOf (own : List (Bytes × Bytes)) : Bytes :=
  metricsUrl url ++ encodeLabels (jobKey jobname ++ labels ++ own)

/-- The requests of a push behind other calls: one for each registration of a collectable that can
be locked. -/
def asked (calls : List Call) (method : HttpMethod)
    (collect : WeakPtr → Option (List MetricFamily)) : List Request :=
  (registered calls).filterMap fun (collectable, own) =>
    (collect collectable).map fun metrics =>
      { method
        uri := uriOf url jobname labels (own.getD [])
        body := TextSerializer.serialize metrics }

/-- Requests with the status codes that they get one after the other. -/
def withCodes (status_code : Nat → Request → Int) (requests : List Request) : List (Request × Int) :=
  requests.zipIdx.map fun request => (request.1, status_code request.2 request.1)

def deletion : Request := { method := .delete, uri := metricsUrl url ++ encodeLabels (jobKey jobname) }

def instanceDeletion : Request := { method := .delete, uri := uriOf url jobname labels [] }

/-- The requests that a call behind others asks for; a push at once stops behind the first one that
gets a bad status code. -/
def asks (calls : List Call) : Call → List Request
  | .registerCollectable _ _ => []
  | .push method collect status_code =>
    (untilFailure badStatus 200
      (withCodes status_code (asked url jobname labels calls method collect))).1
  | .asyncPush method collect => asked url jobname labels calls method collect
  | .delete => [deletion url jobname]
  | .asyncDelete => [deletion url jobname]
  | .deleteForInstance => [instanceDeletion url jobname labels]
  | .asyncDeleteForInstance => [instanceDeletion url jobname labels]
  | .destroy _ => []

/-- The requests of one call after the other. -/
inductive Asked : List Call → List Request → Prop
  | nil : Asked [] []
  | concat {calls : List Call} {requests : List Request} (before : Asked calls requests)
      (call : Call) : Asked (calls ++ [call]) (requests ++ asks url jobname labels calls call)

section Deletions

variable {url jobname : Bytes} {labels own : List (Bytes × Bytes)}

theorem encodeLabels_eq_nil_iff {labels : List (Bytes × Bytes)} :
    encodeLabels labels = [] ↔ labels = [] := by
  cases labels with
  | nil => exact iff_of_true rfl rfl
  | cons label labels =>
      refine iff_of_false (fun hnil => ?_) (List.cons_ne_nil _ _)
      have hlabel := (List.append_eq_nil_iff.mp hnil).1
      unfold encodeLabel at hlabel
      split_ifs at hlabel <;> simp [ascii] at hlabel

theorem encodeLabels_append (labels own : List (Bytes × Bytes)) :
    encodeLabels (labels ++ own) = encodeLabels labels ++ encodeLabels own := List.flatMap_append

/-- A deletion for the instance is for what has been pushed without labels of its own. -/
theorem uriOf_eq_uriOf_nil_iff :
    uriOf url jobname labels own = uriOf url jobname labels [] ↔ own = [] := by
  rw [uriOf, uriOf, List.append_nil, encodeLabels_append, ← List.append_assoc,
    List.append_right_eq_self, encodeLabels_eq_nil_iff]

/-- A deletion is so only when the gateway has no labels either. -/
theorem uriOf_eq_iff :
    uriOf url jobname labels own = metricsUrl url ++ encodeLabels (jobKey jobname) ↔
      labels = [] ∧ own = [] := by
  rw [uriOf, List.append_assoc, encodeLabels_append, ← List.append_assoc,
    List.append_right_eq_self, encodeLabels_eq_nil_iff, List.append_eq_nil_iff]

/-- With the label of an instance, both deletions are the same only for no host name. -/
theorem uriOf_getInstanceLabel_iff {hostname : Bytes} :
    uriOf url jobname (getInstanceLabel hostname) [] =
      metricsUrl url ++ encodeLabels (jobKey jobname) ↔ hostname = [] := by
  rw [uriOf_eq_iff, getInstanceLabel]
  split_ifs with hhostname <;> simp [hhostname]

end Deletions

/-! ## The invariant -/

/-- The entry that a registration makes. -/
def entryOf (registration : WeakPtr × Option (List (Bytes × Bytes))) : WeakPtr × Bytes :=
  (registration.1, encodeLabels (registration.2.getD []))

/-- The gateway has the job and the labels it was made with, and of its entries those that can be
locked are the registrations of living collectables. -/
structure Keeps (calls : List Call) (s : State) : Prop where
  job : s.gateway.jobUri_ = (new url jobname labels).jobUri_
  labels : s.gateway.labels_ = (new url jobname labels).labels_
  living : SameLiving (fun entry => s.expired entry.1) s.gateway.collectables_
    ((registered calls).map entryOf)

end Asked

section Runs

variable {url jobname : Bytes} {labels : List (Bytes × Bytes)} {calls : List Call} {s : State}

theorem collectables_registerCollectable (g : Gateway) (expired : WeakPtr → Bool)
    (collectable : WeakPtr) (own : Option (List (Bytes × Bytes))) :
    (g.registerCollectable expired collectable own).collectables_ =
      purge (fun entry => expired entry.1) g.collectables_ ++ [entryOf (collectable, own)] := by
  cases own <;> rfl

theorem Keeps.jobUri (h : Keeps url jobname labels calls s) :
    s.gateway.jobUri_ = metricsUrl url ++ encodeLabels (jobKey jobname) := by
  rw [h.job, jobKey, encodeLabels, List.flatMap_singleton]
  rfl

theorem Keeps.getUri (h : Keeps url jobname labels calls s) (collectable : WeakPtr)
    (own : List (Bytes × Bytes)) :
    s.gateway.getUri (collectable, encodeLabels own) = uriOf url jobname labels own := by
  have hlabels : s.gateway.labels_ = encodeLabels labels := h.labels
  rw [Gateway.getUri, h.jobUri, hlabels, uriOf, encodeLabels_append, encodeLabels_append,
    List.append_assoc, List.append_assoc, List.append_assoc]

/-- What is found for the entries that can be locked is what is found for all. -/
theorem filterMap_living {α β : Type} {expired : α → Bool} {f : α → Option β}
    (hgone : ∀ x, expired x = true → f x = none) (entries : List α) :
    (living expired entries).filterMap f = entries.filterMap f := by
  rw [living_eq_filter, List.filterMap_filter]
  refine List.filterMap_congr fun x _ => ?_
  cases hx : expired x with
  | false => rfl
  | true => exact (hgone x hx).symm

/-- The requests for the entries are those that the calls ask for. -/
theorem Keeps.requests (h : Keeps url jobname labels calls s) (method : HttpMethod)
    {collect : WeakPtr → Option (List MetricFamily)}
    (hgone : ∀ collectable, s.expired collectable = true → collect collectable = none) :
    (s.gateway.collectables_.filterMap fun entry =>
      (collect entry.1).map (s.gateway.request method entry)) =
        asked url jobname labels calls method collect := by
  have hnone : ∀ entry : WeakPtr × Bytes, s.expired entry.1 = true →
      (collect entry.1).map (s.gateway.request method entry) = none := fun entry hentry => by
    rw [hgone entry.1 hentry, Option.map_none]
  rw [← filterMap_living hnone, h.living, filterMap_living hnone, List.filterMap_map, asked]
  refine List.filterMap_congr fun registration _ => ?_
  refine congrArg (Option.map · _) (funext fun metrics => ?_)
  exact congrArg (Request.mk method · (TextSerializer.serialize metrics))
    (h.getUri registration.1 (registration.2.getD []))

/-- The tasks of a push are its requests and how they go. -/
theorem map_fst_tasks (g : Gateway) (method : HttpMethod)
    (collect : WeakPtr → Option (List MetricFamily)) (performHttpRequest : Nat → Request → Int) :
    (g.tasks method collect performHttpRequest).map Prod.fst =
      g.collectables_.filterMap fun entry => (collect entry.1).map (g.request method entry) := by
  have hentries : g.collectables_ = g.collectables_.zipIdx.map Prod.fst :=
    (List.zipIdx_map_fst 0 g.collectables_).symm
  conv_rhs => rw [hentries, List.filterMap_map]
  rw [tasks, List.map_filterMap]
  refine List.filterMap_congr fun entry _ => ?_
  show ((collect entry.1.1).map _).map Prod.fst = _
  rw [Option.map_map]
  rfl

/-- The code of the request for an entry is the one for its place among the requests. -/
theorem tasks_requestsBefore (g : Gateway) (method : HttpMethod)
    (collect : WeakPtr → Option (List MetricFamily)) (status_code : Nat → Request → Int) :
    g.tasks method collect (fun i request => status_code (g.requestsBefore collect i) request) =
      withCodes status_code (g.collectables_.filterMap fun entry =>
        (collect entry.1).map (g.request method entry)) := by
  have hplaces := filterMap_zipIdx (fun entry => (collect entry.1).map (g.request method entry))
    (fun i request => (request, status_code i request)) g.collectables_
  refine Eq.trans (List.filterMap_congr fun entry _ => ?_) hplaces
  simp only [answered, requestsBefore, Option.map_map, Option.isSome_map]
  rfl

theorem map_snd_futuresLoop (g : Gateway) (method : HttpMethod)
    (collect : WeakPtr → Option (List MetricFamily)) :
    (futuresLoop g method collect 0 g.collectables_).map Prod.snd =
      g.collectables_.filterMap fun entry => (collect entry.1).map (g.request method entry) := by
  have hfutures := futuresLoop_eq g method collect (fun _ _ => 0) g.collectables_ 0
  have hfirst := congrArg (List.map Prod.fst) hfutures
  rw [List.map_map] at hfirst
  rw [← map_fst_tasks g method collect fun _ _ => 0]
  exact hfirst

theorem keeps_start (url jobname : Bytes) (labels : List (Bytes × Bytes))
    (expired : WeakPtr → Bool) : Keeps url jobname labels [] ⟨new url jobname labels, expired, [], []⟩ :=
  ⟨rfl, rfl, rfl⟩

theorem registered_concat (calls : List Call) (call : Call) :
    registered (calls ++ [call]) = registered calls ++ registered [call] := List.filterMap_append

/-- More is expired, and nothing else has changed. -/
theorem Keeps.expire (h : Keeps url jobname labels calls s) {expired : WeakPtr → Bool}
    (hmono : ∀ collectable, s.expired collectable = true → expired collectable = true) :
    SameLiving (fun entry => expired entry.1) s.gateway.collectables_
      ((registered calls).map entryOf) :=
  h.living.mono fun entry => hmono entry.1

theorem Keeps.step (h : Keeps url jobname labels calls s) {call : Call} {s' : State}
    (taken : Step s (some call) s') : Keeps url jobname labels (calls ++ [call]) s' := by
  have hsame : registered [call] = [] → registered (calls ++ [call]) = registered calls :=
    fun hnone => by rw [registered_concat, hnone, List.append_nil]
  cases taken with
  | registerCollectable collectable own =>
      refine ⟨h.job, h.labels, ?_⟩
      rw [registered_concat, List.map_append]
      show SameLiving _ (s.gateway.registerCollectable s.expired collectable own).collectables_ _
      rw [collectables_registerCollectable]
      exact h.living.push _
  | push method collect performHttpRequest gone =>
      refine ⟨h.job, h.labels, ?_⟩
      rw [hsame rfl]
      exact h.expire fun other hexpired => Option.isNone_iff_eq_none.mpr (gone other hexpired)
  | asyncPush method collect gone =>
      refine ⟨h.job, h.labels, ?_⟩
      rw [hsame rfl]
      exact h.expire fun other hexpired => Option.isNone_iff_eq_none.mpr (gone other hexpired)
  | delete => exact ⟨h.job, h.labels, hsame rfl ▸ h.living⟩
  | asyncDelete => exact ⟨h.job, h.labels, hsame rfl ▸ h.living⟩
  | deleteForInstance => exact ⟨h.job, h.labels, hsame rfl ▸ h.living⟩
  | asyncDeleteForInstance => exact ⟨h.job, h.labels, hsame rfl ▸ h.living⟩
  | destroy collectable =>
      refine ⟨h.job, h.labels, ?_⟩
      rw [hsame rfl]
      exact h.expire fun other hexpired => Bool.or_eq_true_iff.mpr (.inr hexpired)

/-- A call adds what it asks for to the requests performed or waiting. -/
theorem Keeps.asks (h : Keeps url jobname labels calls s) {call : Call} {s' : State}
    (taken : Step s (some call) s') : (s'.performed ++ s'.futures).Perm
      ((s.performed ++ s.futures) ++ asks url jobname labels calls call) := by
  have hmiddle : ∀ more : List Request,
      ((s.performed ++ more) ++ s.futures).Perm ((s.performed ++ s.futures) ++ more) := by
    intro more
    rw [List.append_assoc, List.append_assoc]
    exact List.perm_append_comm.append_left _
  have hdelete : s.gateway.delete = deletion url jobname := by
    rw [Gateway.delete, h.jobUri]
    rfl
  have hinstance : s.gateway.deleteForInstance = instanceDeletion url jobname labels := by
    rw [instanceDeletion, ← h.getUri 0 [], Gateway.getUri, deleteForInstance]
    exact congrArg (Request.mk .delete · []) (List.append_nil _).symm
  cases taken with
  | registerCollectable collectable own =>
      rw [Gateway.asks, List.append_nil]
  | push method collect status_code gone =>
      have htasks := tasks_requestsBefore s.gateway method collect status_code
      rw [h.requests method gone] at htasks
      rw [Gateway.asks, ← htasks, tasks, ← pushLoop_eq]
      exact hmiddle _
  | asyncPush method collect gone =>
      rw [Gateway.asks, map_snd_futuresLoop, h.requests method gone, List.append_assoc]
  | delete =>
      rw [hdelete]
      exact hmiddle _
  | asyncDelete =>
      rw [Gateway.asks, hdelete, List.append_assoc]
  | deleteForInstance =>
      rw [hinstance]
      exact hmiddle _
  | asyncDeleteForInstance =>
      rw [Gateway.asks, hinstance, List.append_assoc]
  | destroy collectable => rw [Gateway.asks, List.append_nil]

/-- At any time in any run, the requests that have been performed and those that futures have still
to perform are, each as often, the requests that the calls asked for. -/
theorem run_requests {expired : WeakPtr → Bool}
    (h : Run Step ⟨new url jobname labels, expired, [], []⟩ calls s) :
    ∃ requests, Asked url jobname labels calls requests ∧
      (s.performed ++ s.futures).Perm requests := by
  suffices hkeeps : Keeps url jobname labels calls s ∧ ∃ requests,
      Asked url jobname labels calls requests ∧ (s.performed ++ s.futures).Perm requests from hkeeps.2
  induction h with
  | init => exact ⟨keeps_start url jobname labels expired, [], .nil, .refl _⟩
  | silent reached taken ih =>
      obtain ⟨hkeeps, requests, hasked, hperm⟩ := ih
      cases taken with
      | future waiting =>
          refine ⟨⟨hkeeps.job, hkeeps.labels, hkeeps.living⟩, requests, hasked, ?_⟩
          refine List.Perm.trans ?_ hperm
          rw [waiting, List.append_assoc, List.singleton_append]
          exact List.perm_middle.symm.append_left _
  | visible reached taken ih =>
      obtain ⟨hkeeps, requests, hasked, hperm⟩ := ih
      exact ⟨hkeeps.step taken, _, hasked.concat _, (hkeeps.asks taken).trans (hperm.append_right _)⟩

/-- Of two collectables the first one is refused, so that the second one is not pushed; then the first
one is pushed again, by a future, and the job is deleted by one. -/
def pushing : List Call :=
  [.registerCollectable 1 (some [(ascii "zone", ascii "eu")]), .registerCollectable 2 none,
    .push .put (fun collectable => if collectable ≤ 2 then some [] else none)
      (fun i _ => if i = 0 then 503 else 200),
    .destroy 2, .asyncPush .post fun collectable => if collectable ≤ 1 then some [] else none,
    .asyncDelete]

/-- The deletion has been performed, and the future of the push has not run. -/
theorem run_requests_of_two : ∃ requests, Asked (ascii "http://h") (ascii "j") [] pushing requests ∧
    requests.Perm [⟨.put, ascii "http://h/metrics/job/j/zone/eu", []⟩,
      ⟨.delete, ascii "http://h/metrics/job/j", []⟩,
      ⟨.post, ascii "http://h/metrics/job/j/zone/eu", []⟩] := by
  have hstart : Run Step
      ⟨new (ascii "http://h") (ascii "j") [], fun collectable => 2 < collectable, [], []⟩ [] _ := .init
  have hregistered := (hstart.visible
    (.registerCollectable _ 1 (some [(ascii "zone", ascii "eu")]))).visible
      (.registerCollectable _ 2 none)
  have hpushed := hregistered.visible
    (.push _ .put (fun collectable => if collectable ≤ 2 then some [] else none)
      (fun i _ => if i = 0 then 503 else 200)
      fun collectable hexpired => if_neg (Nat.not_le_of_lt (of_decide_eq_true hexpired)))
  have hagain := (hpushed.visible (.destroy _ 2)).visible
    (.asyncPush _ .post (fun collectable => if collectable ≤ 1 then some [] else none)
      fun collectable hexpired => if_neg fun hle => by
        have hlt : collectable < 2 := Nat.lt_succ_of_le hle
        simp [Nat.ne_of_lt hlt, Nat.le_of_lt hlt] at hexpired)
  have hdeleted := hagain.visible (.asyncDelete _)
  have hrun := hdeleted.silent (.future (show _ = [_] ++ _ :: [] from rfl))
  obtain ⟨requests, hasked, hperm⟩ := run_requests hrun
  refine ⟨requests, hasked, hperm.symm.trans ?_⟩
  decide +kernel

end Runs

end Gateway

end PrometheusCpp
