/-
# PrometheusCpp.Push.Gateway -- the URIs of a push, `gateway.cc` and `label_encoder.cc`

A gateway writes the job and its labels into the URI once, and the labels of a collectable when it
is registered. A label map is given as its entries, in the order of the map; a collectable is known
by the control block of its `weak_ptr`, and which of them have expired is up to the caller.
-/
import PrometheusCpp.Core.ClientMetric
import PrometheusCpp.Util.Base64

namespace PrometheusCpp

open ByteString

/-! ## `label_encoder.cc` -/

/-- Does this character need encoding like in RFC 3986 section 2.3? -/
def needsEncoding (c : UInt8) : Bool :=
  if isLower c then false
  else if isUpper c then false
  else if isDigit c then false
  else if c = minus ∨ c = 46 ∨ c = underscore ∨ c = 126 then false
  else true

/-- What is written to the stream. -/
def encodeLabel (label : Bytes × Bytes) : Bytes :=
  if label.2 = [] then ascii "/" ++ label.1 ++ ascii "@base64/="
  else if label.2.any needsEncoding then
    ascii "/" ++ label.1 ++ ascii "@base64/" ++ base64urlEncode label.2
  else ascii "/" ++ label.1 ++ ascii "/" ++ label.2

/-- The loops over label maps. -/
def encodeLabels (labels : List (Bytes × Bytes)) : Bytes := labels.flatMap encodeLabel

/-! ## `gateway.cc` -/

structure Gateway where
  jobUri_ : Bytes
  labels_ : Bytes
  collectables_ : List (WeakPtr × Bytes) := []

namespace Gateway

/-- The URL of the gateway up to the grouping key. -/
def metricsUrl (url : Bytes) : Bytes :=
  url ++ (if url ≠ [] ∧ url.getLast? ≠ some slash then ascii "/" else []) ++ ascii "metrics"

def new (url jobname : Bytes) (labels : List (Bytes × Bytes)) : Gateway where
  jobUri_ := metricsUrl url ++ encodeLabel (ascii "job", jobname)
  labels_ := encodeLabels labels

def cleanupStalePointers (expired : WeakPtr → Bool) (collectables : List (WeakPtr × Bytes)) :
    List (WeakPtr × Bytes) := collectables.filter fun candidate => !expired candidate.1

def registerCollectable (g : Gateway) (expired : WeakPtr → Bool) (collectable : WeakPtr)
    (labels : Option (List (Bytes × Bytes))) : Gateway :=
  let ss := match labels with
    | some labels => encodeLabels labels
    | none => []
  { g with
    collectables_ := cleanupStalePointers expired g.collectables_ ++ [(collectable, ss)] }

def getUri (g : Gateway) (collectable : WeakPtr × Bytes) : Bytes :=
  g.jobUri_ ++ g.labels_ ++ collectable.2

/-! ## Registrations -/

/-- A call of `RegisterCollectable`. -/
structure Registration where
  expired : WeakPtr → Bool
  collectable : WeakPtr
  labels : Option (List (Bytes × Bytes))

def run (g : Gateway) (registrations : List Registration) : Gateway :=
  registrations.foldl (fun g r => g.registerCollectable r.expired r.collectable r.labels) g

/-- The job, the labels of the gateway and those of the collectable. -/
def groupingKey (jobname : Bytes) (labels : List (Bytes × Bytes)) (r : Registration) :
    List (Bytes × Bytes) := (ascii "job", jobname) :: labels ++ r.labels.getD []

/-- A registration changes neither the job nor the gateway's labels, and adds one entry. -/
theorem run_spec (registrations : List Registration) : ∀ g : Gateway,
    (g.run registrations).jobUri_ = g.jobUri_ ∧ (g.run registrations).labels_ = g.labels_ ∧
      ∀ entry ∈ (g.run registrations).collectables_, entry ∈ g.collectables_ ∨
        ∃ r ∈ registrations, entry = (r.collectable, encodeLabels (r.labels.getD [])) := by
  induction registrations with
  | nil => exact fun g => ⟨rfl, rfl, fun _ hentry => .inl hentry⟩
  | cons r registrations ih =>
      intro g
      obtain ⟨hjob, hlabels, hentries⟩ := ih (g.registerCollectable r.expired r.collectable r.labels)
      refine ⟨hjob, hlabels, fun entry hentry => ?_⟩
      rcases hentries entry hentry with hold | ⟨r', hr', heq⟩
      · rcases List.mem_append.mp hold with hkept | hnew
        · exact .inl (List.mem_filter.mp hkept).1
        · refine .inr ⟨r, List.mem_cons_self, ?_⟩
          rw [List.mem_singleton.mp hnew]
          cases r.labels <;> rfl
      · exact .inr ⟨r', List.mem_cons_of_mem _ hr', heq⟩

/-- The URI of an entry is the gateway's URL and the encoded grouping key. -/
theorem getUri_run {url jobname : Bytes} {labels : List (Bytes × Bytes)}
    {registrations : List Registration} {entry : WeakPtr × Bytes}
    (h : entry ∈ ((new url jobname labels).run registrations).collectables_) :
    ∃ r ∈ registrations, r.collectable = entry.1 ∧
      ((new url jobname labels).run registrations).getUri entry =
        metricsUrl url ++ encodeLabels (groupingKey jobname labels r) := by
  obtain ⟨hjob, hlabels, hentries⟩ := run_spec registrations (new url jobname labels)
  rcases hentries entry h with hold | ⟨r, hr, rfl⟩
  · exact absurd hold List.not_mem_nil
  · refine ⟨r, hr, rfl, ?_⟩
    rw [getUri, hjob, hlabels]
    simp only [new, groupingKey, encodeLabels, List.cons_append,
      List.flatMap_cons, List.flatMap_append, List.append_assoc]

end Gateway

end PrometheusCpp
