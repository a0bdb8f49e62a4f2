/-
# PrometheusCpp.Pull.Requests -- the requests that threads serve at the same time, `handler.cc`

A handler registers three metrics in the registry of its endpoint: the bytes sent, the scrapes
served and how long they took. `handleGet` collects under the mutex of the collectables and updates
the metrics when the response is written; several threads of the server run it at the same time. So
a scrape of the own registry and the updates of other requests are steps of one system.
-/
import PrometheusCpp.Core.ScrapeThreads
import PrometheusCpp.Pull.Exposer
import PrometheusCpp.Pull.Responses

namespace PrometheusCpp

open ByteString Linearization

/-! ## The constructor -/

/-- `detail::Builder<T>` -/
structure Builder where
  labels_ : Labels := .empty
  name_ : Bytes := []
  help_ : Bytes := []

namespace Builder

def labels (b : Builder) (labels : Labels) : Builder := { b with labels_ := labels }

def name (b : Builder) (name : Bytes) : Builder := { b with name_ := name }

def help (b : Builder) (help : Bytes) : Builder := { b with help_ := help }

/-- The call that `Register` makes, with the address for a new family. -/
def register (b : Builder) (k : MetricKind) (address : Ptr) : Registry.Event :=
  .add k b.name_ b.help_ b.labels_ address

end Builder

namespace MetricsHandler

def bytesTransferred : Builder := Builder.help (Builder.name {}
  (ascii "exposer_transferred_bytes_total")) (ascii "Transferred bytes to metrics services")

def numScrapes : Builder := Builder.help (Builder.name {} (ascii "exposer_scrapes_total"))
  (ascii "Number of times metrics were scraped")

def requestLatencies : Builder := Builder.help (Builder.name {} (ascii "exposer_request_latencies"))
  (ascii "Latencies of serving scrape requests, in microseconds")

def latencyQuantiles : List CKMSQuantiles.Quantile :=
  [.new (.ofRat (1 / 2)) (.ofRat (1 / 20)), .new (.ofRat (9 / 10)) (.ofRat (1 / 100)),
    .new (.ofRat (99 / 100)) (.ofRat (1 / 1000))]

/-- The default window of a summary. -/
def maxAge : Int := 60000

def ageBuckets : Int := 5

def newLatencies (now : Int) : Summary where
  quantiles_ := latencyQuantiles
  quantile_values_ := .new (CKMSQuantiles.new latencyQuantiles)
    (maxAge * Summary.ticksPerMillisecond) ageBuckets.toNat now

/-- The references of a handler to its own families and metrics. -/
structure Own where
  bytes_transferred_family_ : Ptr
  bytes_transferred_ : Ptr
  num_scrapes_family_ : Ptr
  num_scrapes_ : Ptr
  request_latencies_family_ : Ptr
  request_latencies_ : Ptr
  families : [bytes_transferred_family_, num_scrapes_family_, request_latencies_family_].Nodup
  nonnull : bytes_transferred_ ≠ nullptr ∧ num_scrapes_ ≠ nullptr ∧ request_latencies_ ≠ nullptr

namespace Own

variable (m : Own)

theorem families_ne : m.bytes_transferred_family_ ≠ m.num_scrapes_family_ ∧
    m.bytes_transferred_family_ ≠ m.request_latencies_family_ ∧
      m.num_scrapes_family_ ≠ m.request_latencies_family_ := by
  have hdistinct := m.families
  simp only [List.nodup_cons, List.mem_cons, List.not_mem_nil, or_false, not_or] at hdistinct
  exact ⟨hdistinct.1.1, hdistinct.1.2, hdistinct.2.1⟩

/-- The calls of the constructor. -/
def construction (now : Int) : List Registry.Event :=
  [bytesTransferred.register .counter m.bytes_transferred_family_,
    .family (k := .counter) m.bytes_transferred_family_
      (.add .empty m.bytes_transferred_ ({} : Counter)),
    numScrapes.register .counter m.num_scrapes_family_,
    .family (k := .counter) m.num_scrapes_family_ (.add .empty m.num_scrapes_ ({} : Counter)),
    requestLatencies.register .summary m.request_latencies_family_,
    .family (k := .summary) m.request_latencies_family_
      (.add .empty m.request_latencies_ (newLatencies now))]

def bytesFamily (bytes : Counter) : Family .counter :=
  .single bytesTransferred.name_ bytesTransferred.help_ m.bytes_transferred_ bytes

def scrapesFamily (scrapes : Counter) : Family .counter :=
  .single numScrapes.name_ numScrapes.help_ m.num_scrapes_ scrapes

def latenciesFamily (latencies : Summary) : Family .summary :=
  .single requestLatencies.name_ requestLatencies.help_ m.request_latencies_ latencies

/-- The registry when the handler has been made. -/
def registry (now : Int) : Registry where
  insert_behavior_ := .merge
  counters_ := [(m.bytes_transferred_family_, m.bytesFamily {}),
    (m.num_scrapes_family_, m.scrapesFamily {})]
  summaries_ := [(m.request_latencies_family_, m.latenciesFamily (newLatencies now))]

end Own

/-- A metric without labels is added to a family that has none yet. -/
theorem does_add {k : MetricKind} (name help : Bytes) {p : Ptr} (hp : p ≠ nullptr) {object : k.Object}
    (constructed : k.Constructed object) :
    Family.Does { metrics_ := .empty, name_ := name, help_ := help, constant_labels_ := .empty }
      (.add .empty p object) (.single name help p object) :=
  .add .empty p object constructed hp fun _ hentry => absurd hentry List.not_mem_nil

theorem run_construction (m : Own) (now : Int) :
    Run Registry.Shared.Step ⟨.new .merge, .outside⟩ (m.construction now)
      ⟨m.registry now, .outside⟩ := by
  obtain ⟨hbytes, hscrapes, hlatencies⟩ := m.nonnull
  obtain ⟨hbs, hbl, hsl⟩ := m.families_ne
  have hsummary : Summary.new latencyQuantiles maxAge ageBuckets now = .ok (newLatencies now) := rfl
  -- The family of the bytes, and its counter.
  have hfirst := Run.init.visible (Registry.Shared.Step.add (r := .new .merge) .counter
    bytesTransferred.name_ bytesTransferred.help_ .empty m.bytes_transferred_family_ fun k => by
      cases k <;> exact fun _ hentry => absurd hentry List.not_mem_nil)
  have hfirst' := hfirst.visible (.family (show _ = [] ++ _ :: [] from rfl)
    (does_add _ _ hbytes .counter) fun _ heq => by cases heq)
  -- That of the scrapes.
  have hsecond := hfirst'.visible (.add .counter
    numScrapes.name_ numScrapes.help_ .empty m.num_scrapes_family_ fun k entry hentry => by
      cases k with
      | counter =>
          obtain rfl := List.mem_singleton.mp hentry
          exact hbs
      | _ => exact absurd hentry List.not_mem_nil)
  have hsecond' := hsecond.visible (.family
    (show _ = [(m.bytes_transferred_family_, m.bytesFamily {})] ++ _ :: [] from rfl)
    (does_add _ _ hscrapes .counter) fun _ heq => by cases heq)
  -- That of the latencies.
  have hthird := hsecond'.visible (.add .summary
    requestLatencies.name_ requestLatencies.help_ .empty m.request_latencies_family_
    fun k entry hentry => by
      cases k with
      | counter =>
          rcases List.mem_cons.mp hentry with rfl | hentry
          · exact hbl
          · obtain rfl := List.mem_singleton.mp hentry
            exact hsl
      | _ => exact absurd hentry List.not_mem_nil)
  exact hthird.visible (.family (show _ = [] ++ _ :: [] from rfl)
    (does_add _ _ hlatencies (.summary hsummary)) fun _ heq => by cases heq)

/-! ## Requests -/

/-- Where a thread is in `handleGet`, and what it has there. -/
inductive Stage where
  | outside
  | waiting (start_time_of_request : Int)
  | collecting (start_time_of_request : Int)
  | collected (start_time_of_request : Int) (metrics : List MetricFamily)
  | responding (start_time_of_request : Int) (metrics : List MetricFamily)
  | responded (start_time_of_request : Int) (bodySize : Nat)
  | observed (bodySize : Nat)
  | transferred

/-- The mutex of the collectables is held. -/
def Stage.holds : Stage → Bool
  | .collecting _ => true
  | .collected _ _ => true
  | _ => false

/-- The response is sent, and not all of the metrics are updated. -/
def Stage.updates : Stage → Bool
  | .responded _ _ => true
  | .observed _ => true
  | .transferred => true
  | _ => false

/-- What is still to be added to the metrics for the response. -/
def Stage.latencies : Stage → Nat
  | .responded _ _ => 1
  | _ => 0

def Stage.bytes : Stage → Nat
  | .responded _ bodySize => bodySize
  | .observed bodySize => bodySize
  | _ => 0

def Stage.scrapes : Stage → Nat
  | .observed _ => 1
  | .transferred => 1
  | _ => 0

/-- What is seen of the requests; `own` is what the own registry collects. -/
inductive Event (ι : Type) where
  | request (t : ι)
  | locked (t : ι)
  | collected (t : ι) (own : List MetricFamily)
  | responded (t : ι) (response : Bytes)
  | observed (t : ι) (now duration : Int)
  | transferred (t : ι) (bodySize : Nat)
  | counted (t : ι)

/-- `duration_cast` of ticks to microseconds -/
def duration (start_time_of_request stop_time_of_request : Int) : Int :=
  (stop_time_of_request - start_time_of_request).tdiv 1000

section Threads

variable {ι : Type} (m : Own)

/-- The events that are calls on the own registry and its metrics. -/
def Event.shared : Event ι → Option Registry.Event
  | .collected _ own => some (.collect own)
  | .observed _ now duration => some (.family (k := .summary) m.request_latencies_family_
      (.call m.request_latencies_ (.summaryObserve now (.fin duration))))
  | .transferred _ bodySize => some (.family (k := .counter) m.bytes_transferred_family_
      (.call m.bytes_transferred_ (.counterIncrementBy bodySize)))
  | .counted _ => some (.family (k := .counter) m.num_scrapes_family_
      (.call m.num_scrapes_ .counterIncrement))
  | _ => none

/-- A step of a thread in `handleGet`, with the own registry and the holder of the mutex. The own
registry is the first of the collectables, and nobody else takes its mutex, so both are taken at
once; `others` is what the others collect. -/
inductive Move (HAVE_ZLIB : Option Zlib) (fuel : Nat) (t : ι) :
    Registry.Shared → Option ι → Stage → Option (Event ι) →
      Registry.Shared → Option ι → Stage → Prop
  | request {shared : Registry.Shared} {mutex : Option ι} (start_time_of_request : Int) :
      Move HAVE_ZLIB fuel t shared mutex .outside (some (.request t))
        shared mutex (.waiting start_time_of_request)
  | lock {r : Registry} {start_time_of_request : Int} :
      Move HAVE_ZLIB fuel t ⟨r, .outside⟩ none (.waiting start_time_of_request) (some (.locked t))
        ⟨r, .collectAll r.order []⟩ (some t) (.collecting start_time_of_request)
  | collect {shared shared' : Registry.Shared} {mutex : Option ι} {start_time_of_request : Int}
      (taken : shared.Step none shared') :
      Move HAVE_ZLIB fuel t shared mutex (.collecting start_time_of_request) none
        shared' mutex (.collecting start_time_of_request)
  | unlock {shared shared' : Registry.Shared} {mutex : Option ι} {start_time_of_request : Int}
      {own : List MetricFamily} (taken : shared.Step (some (.collect own)) shared') :
      Move HAVE_ZLIB fuel t shared mutex (.collecting start_time_of_request)
        (some (.collected t own)) shared' mutex (.collected start_time_of_request own)
  | release {shared : Registry.Shared} {mutex : Option ι} {start_time_of_request : Int}
      {own : List MetricFamily} (others : List MetricFamily) :
      Move HAVE_ZLIB fuel t shared mutex (.collected start_time_of_request own) none
        shared none (.responding start_time_of_request (own ++ others))
  | respond {shared : Registry.Shared} {mutex : Option ι} {start_time_of_request : Int}
      {metrics : List MetricFamily} {response : Bytes} {bodySize : Nat}
      (accept_encoding : Option Bytes)
      (done : writeResponse HAVE_ZLIB fuel accept_encoding (TextSerializer.serialize metrics) =
        some (response, bodySize)) :
      Move HAVE_ZLIB fuel t shared mutex (.responding start_time_of_request metrics)
        (some (.responded t response)) shared mutex (.responded start_time_of_request bodySize)
  | observe {shared shared' : Registry.Shared} {mutex : Option ι} {start_time_of_request : Int}
      {bodySize : Nat} (stop_time_of_request now : Int)
      (taken : shared.Step (Event.shared m
        (.observed t now (duration start_time_of_request stop_time_of_request))) shared') :
      Move HAVE_ZLIB fuel t shared mutex (.responded start_time_of_request bodySize)
        (some (.observed t now (duration start_time_of_request stop_time_of_request)))
        shared' mutex (.observed bodySize)
  | transfer {shared shared' : Registry.Shared} {mutex : Option ι} {bodySize : Nat}
      (taken : shared.Step (Event.shared m (.transferred t bodySize)) shared') :
      Move HAVE_ZLIB fuel t shared mutex (.observed bodySize) (some (.transferred t bodySize))
        shared' mutex .transferred
  | count {shared shared' : Registry.Shared} {mutex : Option ι}
      (taken : shared.Step (Event.shared m (.counted t)) shared') :
      Move HAVE_ZLIB fuel t shared mutex .transferred (some (.counted t)) shared' mutex .outside

structure Serving (ι : Type) where
  shared : Registry.Shared
  collectables_mutex_ : Option ι
  stage : ι → Stage

def Own.serving (now : Int) : Serving ι := ⟨⟨m.registry now, .outside⟩, none, fun _ => .outside⟩

inductive Serving.Step [DecidableEq ι] (HAVE_ZLIB : Option Zlib) (fuel : Nat) :
    Serving ι → Option (Event ι) → Serving ι → Prop
  | move {shared shared' : Registry.Shared} {mutex mutex' : Option ι} {stage : ι → Stage}
      {at_ at' : Stage} {o : Option (Event ι)} (t : ι) (here : stage t = at_)
      (moved : Move m HAVE_ZLIB fuel t shared mutex at_ o shared' mutex' at') :
      Step HAVE_ZLIB fuel ⟨shared, mutex, stage⟩ o
        ⟨shared', mutex', Function.update stage t at'⟩

end Threads

end MetricsHandler

end PrometheusCpp
