/-
# PrometheusCpp.Pull.OwnMetrics -- what a handler says of the requests it has served, `handler.cc`

What a scrape says of the handler's own metrics is of the requests that were served when it read
them (`reports_requests`). The latency is observed first and read last, so there are never more
scrapes than latencies (`scrapes_le_latencies`). Whatever the threads do at the same time, no update
is lost and none is made twice (`responses_counted`).
-/
import PrometheusCpp.Core.ScrapeAlone
import PrometheusCpp.Core.ScrapeOrder
import PrometheusCpp.Core.ScrapeTotals
import PrometheusCpp.Lib.Ledger
import PrometheusCpp.Pull.Requests

namespace PrometheusCpp

open ByteString Linearization HttpMessage Ledger

namespace MetricsHandler

namespace Own

variable (m : Own)

theorem stores_bytes (now : Int) : Registry.Stores (m.registry now) (m.bytesFamily {})
    m.bytes_transferred_family_ .empty m.bytes_transferred_ ({} : Counter) (m.bytesFamily {}) :=
  ⟨List.mem_cons_self, rfl, rfl, List.mem_cons_self⟩

theorem stores_scrapes (now : Int) : Registry.Stores (m.registry now) (m.scrapesFamily {})
    m.num_scrapes_family_ .empty m.num_scrapes_ ({} : Counter) (m.scrapesFamily {}) :=
  ⟨List.mem_cons_of_mem _ List.mem_cons_self, rfl, rfl, List.mem_cons_self⟩

theorem stores_latencies (now : Int) :
    Registry.Stores (m.registry now) (m.latenciesFamily (newLatencies now))
      m.request_latencies_family_ .empty m.request_latencies_ (newLatencies now)
        (m.latenciesFamily (newLatencies now)) :=
  ⟨List.mem_cons_self, rfl, rfl, List.mem_cons_self⟩

end Own

section Threads

variable {ι : Type}

/-! ## What is counted -/

def Event.response? : Event ι → Option Bytes
  | .responded _ response => some response
  | _ => none

/-- The bytes that are added for a response. -/
def Event.bodySize? : Event ι → Option Nat
  | .transferred _ bodySize => some bodySize
  | _ => none

def Event.scrape? : Event ι → Option Nat
  | .counted _ => some 1
  | _ => none

def Event.duration? : Event ι → Option Int
  | .observed _ _ duration => some duration
  | _ => none

def bytes (es : List (Event ι)) : Nat := (es.filterMap Event.bodySize?).sum

def scrapes (es : List (Event ι)) : Nat := (es.filterMap Event.scrape?).sum

def durations (es : List (Event ι)) : List Int := es.filterMap Event.duration?

def responses (es : List (Event ι)) : List Bytes := es.filterMap Event.response?

/-- The size of the body that a client finds in a response. -/
def bodySize (response : Bytes) : Nat :=
  (readMessage response).elim 0 fun (message, _) => message.body.length

/-- The bytes of the bodies of all responses. -/
def bodySizes (es : List (Event ι)) : Nat := ((responses es).map bodySize).sum

variable {m : Own} {HAVE_ZLIB : Option Zlib} {fuel : Nat} {s s' : Serving ι} {es : List (Event ι)}

/-! ## The own registry -/

theorem Move.shared {t : ι} {shared shared' : Registry.Shared} {mutex mutex' : Option ι}
    {at_ at' : Stage} {o : Option (Event ι)}
    (moved : Move m HAVE_ZLIB fuel t shared mutex at_ o shared' mutex' at') :
    Run Registry.Shared.Step shared (o.toList.filterMap (Event.shared m)) shared' := by
  cases moved with
  | lock => exact .silent .init .lock
  | collect taken => exact .silent .init taken
  | unlock taken => exact .visible .init taken
  | observe stop now taken => exact .visible .init taken
  | transfer taken => exact .visible .init taken
  | count taken => exact .visible .init taken
  | _ => exact .init

/-- What the requests do to the own registry is a run of it, with threads that call its metrics. -/
theorem shared_run [DecidableEq ι] (h : Run (Serving.Step m HAVE_ZLIB fuel) s es s') :
    Run Registry.Shared.Step s.shared (es.filterMap (Event.shared m)) s'.shared := by
  induction h with
  | init => exact .init
  | silent _ taken ih =>
      cases taken with
      | move t here moved =>
          have hmore := ih.trans moved.shared
          rwa [Option.toList_none, List.filterMap_nil, List.append_nil] at hmore
  | visible _ taken ih =>
      cases taken with
      | move t here moved =>
          rw [List.filterMap_append]
          exact ih.trans moved.shared

/-- Nothing is taken out of the own registry. -/
theorem shared_kept {event : Registry.Event} (h : event ∈ es.filterMap (Event.shared m))
    (k : MetricKind) (p a : Ptr) : ¬ event.Removes k p a := by
  obtain ⟨e, -, he⟩ := List.mem_filterMap.mp h
  cases e with
  | collected t own => exact Option.some.inj he ▸ id
  | observed t now duration => exact Option.some.inj he ▸ id
  | transferred t bodySize => exact Option.some.inj he ▸ id
  | counted t => exact Option.some.inj he ▸ id
  | _ => cases he

theorem amount_bytes (e : Event ι) :
    (Event.shared m e).bind (Registry.Event.amount m.bytes_transferred_family_ m.bytes_transferred_) =
      e.bodySize?.map Nat.cast := by
  cases e with
  | transferred t bodySize => exact if_pos ⟨rfl, rfl⟩
  | counted t => exact if_neg fun heq => m.families_ne.1 heq.1.symm
  | _ => rfl

theorem amount_scrapes (e : Event ι) :
    (Event.shared m e).bind (Registry.Event.amount m.num_scrapes_family_ m.num_scrapes_) =
      e.scrape?.map Nat.cast := by
  cases e with
  | transferred t bodySize => exact if_neg fun heq => m.families_ne.1 heq.1
  | counted t => exact if_pos ⟨rfl, rfl⟩
  | _ => rfl

theorem observation_durations (e : Event ι) :
    (Event.shared m e).bind
        (Registry.Event.observation m.request_latencies_family_ m.request_latencies_) =
      e.duration?.map fun duration : ℤ => .fin duration := by
  cases e with
  | observed t now duration => exact if_pos ⟨rfl, rfl⟩
  | _ => rfl

/-- A counter that is only given natural numbers has their sum. -/
theorem counter_total {p a : Ptr} {amount? : Event ι → Option Nat}
    (hamount : ∀ e, (Event.shared m e).bind (Registry.Event.amount p a) = (amount? e).map Nat.cast)
    {y : Counter}
    (h : Registry.Became (k := .counter) p a ({} : Counter) (es.filterMap (Event.shared m)) y) :
    y.value = ((es.filterMap amount?).sum : ℕ) := by
  have hamounts : (es.filterMap (Event.shared m)).filterMap (Registry.Event.amount p a) =
      (es.filterMap amount?).map Nat.cast := by
    rw [List.filterMap_filterMap, List.map_filterMap]
    exact List.filterMap_congr fun e _ => hamount e
  have hlow : ∀ event ∈ es.filterMap (Event.shared m), event ≠ .family p (.call a .counterReset) := by
    intro event hevent heq
    obtain ⟨e, -, he⟩ := List.mem_filterMap.mp hevent
    rw [heq] at he
    cases e <;> cases he
  have hpos : ∀ v ∈ (es.filterMap (Event.shared m)).filterMap (Registry.Event.amount p a),
      v.lt 0 = false := by
    intro v hv
    rw [hamounts] at hv
    obtain ⟨n, -, rfl⟩ := List.mem_map.mp hv
    exact decide_eq_false (not_lt.mpr (Number.fin_le_fin.mpr (Nat.cast_nonneg n)))
  rw [h.amounts hlow hpos, hamounts]
  exact (foldl_additive (fun n : ℕ => (n : Double)) (fun a b => by
    show Double.ofRat _ = Double.ofRat _ + Double.ofRat _
    rw [Double.ofRat_add, Nat.cast_add]) _ 0).trans (by rw [Nat.zero_add])

theorem latencies_total {now : Int} {y : Summary}
    (h : Registry.Became (k := .summary) m.request_latencies_family_ m.request_latencies_
      (newLatencies now) (es.filterMap (Event.shared m)) y) :
    y.count_ = (durations es).length ∧ y.sum_ = ((durations es).sum : ℤ) := by
  have hobserved : (es.filterMap (Event.shared m)).filterMap
      (Registry.Event.observation m.request_latencies_family_ m.request_latencies_) =
        (durations es).map fun duration : ℤ => Number.fin duration := by
    rw [durations, List.filterMap_filterMap, List.map_filterMap]
    exact List.filterMap_congr fun e _ => observation_durations e
  obtain ⟨hcount, hsum⟩ := h.observations
  rw [hobserved] at hcount hsum
  constructor
  · rw [hcount, List.length_map]
    exact Nat.zero_add _
  · rw [hsum, List.map_map]
    exact (foldl_additive (fun n : ℤ => (n : Double)) (fun a b => by
      show Double.ofRat _ = Double.ofRat _ + Double.ofRat _
      rw [Double.ofRat_add, Int.cast_add]) _ 0).trans (by rw [zero_add])

/-- What the calls before a scrape begins and then those after that make of a metric. -/
theorem became_locked {k : MetricKind} {p a : Ptr} {x y z : k.Object} {es₁ es₂ : List (Event ι)}
    (t : ι) (h : Registry.Became p a x (es₁.filterMap (Event.shared m)) y)
    (h' : Registry.Became p a y (es₂.filterMap (Event.shared m)) z) :
    Registry.Became p a x ((es₁ ++ .locked t :: es₂).filterMap (Event.shared m)) z := by
  rw [List.filterMap_append, List.filterMap_cons_none rfl]
  exact h.trans h'

/-- What the own registry has collected, when its metrics were read after these events. -/
structure Reports (own : List MetricFamily) (bytesRead scrapesRead latenciesRead : List (Event ι)) :
    Prop where
  bytes : ∃ metric, Registry.reported own (ascii "exposer_transferred_bytes_total") [] = [metric] ∧
    metric.counter = (bytes bytesRead : ℕ)
  scrapes : ∃ metric, Registry.reported own (ascii "exposer_scrapes_total") [] = [metric] ∧
    metric.counter = (scrapes scrapesRead : ℕ)
  latencies : ∃ metric, Registry.reported own (ascii "exposer_request_latencies") [] = [metric] ∧
    metric.summary.sample_count = (durations latenciesRead).length ∧
      metric.summary.sample_sum = ((durations latenciesRead).sum : ℤ)

section Collected

variable {now : Int} {r : Registry} {es₁ es₂ : List (Event ι)} {own : List MetricFamily}
  {after : Registry.Shared}

/-- The own registry at any time: a metric of it is where it was made, as its calls have left it. -/
theorem own_stores {k : MetricKind} {f₀ : Family k} {p a : Ptr} {x : k.Object}
    {shared : Registry.Shared}
    (hrun : Run Registry.Shared.Step ⟨m.registry now, .outside⟩ (es₁.filterMap (Event.shared m)) shared)
    (h : Registry.Stores (m.registry now) f₀ p .empty a x f₀) :
    ∃ f y, Registry.Stores shared.registry f₀ p .empty a y f ∧
      Registry.Became p a x (es₁.filterMap (Event.shared m)) y := by
  have hinv := (Registry.Shared.inv_new .merge).run (run_construction m now)
  obtain ⟨f, y, hstores, hbecame, -⟩ := hinv.tracks hrun h (.inl trivial)
    fun event hevent => shared_kept hevent k p a
  exact ⟨f, y, hstores, hbecame⟩

/-- What one collect of the own registry says, from the lock to the unlock of the registry. -/
theorem reports_own {t : ι}
    (hbefore : Run Registry.Shared.Step ⟨m.registry now, .outside⟩ (es₁.filterMap (Event.shared m))
      ⟨r, .outside⟩)
    (hcollect : Run Registry.Shared.Step ⟨r, .collectAll r.order []⟩
      (es₂.filterMap (Event.shared m) ++ [.collect own]) after)
    (hnone : ∀ u own', .collected u own' ∉ es₂) :
    ∃ b n l, b <+: es₂ ∧ n <+: l ∧ l <+: es₂ ∧
      Reports own (es₁ ++ .locked t :: b) (es₁ ++ .locked t :: n) (es₁ ++ .locked t :: l) := by
  have hstart := (run_construction m now).trans hbefore
  have hlocked : Run Registry.Shared.Step ⟨r, .outside⟩
      (es₂.filterMap (Event.shared m) ++ [.collect own]) after := (Run.silent .init .lock).trans hcollect
  obtain ⟨fb, yb, hfb, hyb⟩ := own_stores hbefore (m.stores_bytes now)
  obtain ⟨fn, yn, hfn, hyn⟩ := own_stores hbefore (m.stores_scrapes now)
  obtain ⟨fl, yl, hfl, hyl⟩ := own_stores hbefore (m.stores_latencies now)
  have hone : ∀ results, .collect results ∉ es₂.filterMap (Event.shared m) := by
    intro results hmem
    obtain ⟨e, he, heq⟩ := List.mem_filterMap.mp hmem
    cases e with
    | collected u own' => exact hnone u own' he
    | _ => cases heq
  -- The bytes are read on their own, the number before the latencies.
  obtain ⟨metricb, hreportedb, eb, eb', hbytes, hreadb⟩ :=
    Registry.scrape_reports hstart hlocked hfb.registered hfb.stored
      fun event hevent => shared_kept hevent _ _ _
  obtain ⟨en, el, el', metricn, metricl, hboth, hreportedn, hreadn, hreportedl, hreadl⟩ :=
    Registry.scrape_reports_in_order hstart hcollect hone hfn.registered hfn.stored hfl.registered
      hfl.stored (Registry.sublist_order hfn.registered hfl.registered)
      fun event hevent => ⟨shared_kept hevent _ _ _, shared_kept hevent _ _ _⟩
  obtain ⟨b, b', rfl, rfl, -⟩ := List.filterMap_eq_append_iff.mp hbytes
  obtain ⟨l, l', hl, hnl, -⟩ := List.filterMap_eq_append_iff.mp hboth
  obtain ⟨n, n', rfl, rfl, rfl⟩ := List.filterMap_eq_append_iff.mp hnl
  obtain ⟨zb, hzb, hvalueb⟩ := hreadb.counter
  obtain ⟨zn, hzn, hvaluen⟩ := hreadn.counter
  obtain ⟨zl, hzl, hcountl, hsuml⟩ := hreadl.summary
  refine ⟨b, n, n ++ n', ⟨b', rfl⟩, ⟨n', rfl⟩, ⟨l', hl.symm⟩, ⟨metricb, ?_, hvalueb.trans ?_⟩,
    ⟨metricn, ?_, hvaluen.trans ?_⟩, metricl, ?_, ?_⟩
  · rw [← hreportedb, hfb.name, hfb.exposedLabels]
    rfl
  · exact counter_total amount_bytes (became_locked t hyb hzb)
  · rw [← hreportedn, hfn.name, hfn.exposedLabels]
    rfl
  · exact counter_total amount_scrapes (became_locked t hyn hzn)
  · rw [← hreportedl, hfl.name, hfl.exposedLabels]
    rfl
  · rw [← List.filterMap_append] at hzl
    rw [hcountl, hsuml]
    exact latencies_total (became_locked t hyl hzl)

end Collected

/-! ## What the threads have still to do -/

theorem bodySize_text {coding : List (Bytes × Bytes)} (h : coding = [] ∨ coding = gzipCoding)
    (body : Bytes) : bodySize (response coding body).text = body.length := by
  have hread := readMessage_append (framed_response h body) []
  rw [List.append_nil] at hread
  rw [bodySize, hread]
  rfl

/-- The size that `WriteResponse` returns is that of the body it has sent. -/
theorem bodySize_writeResponse {accept_encoding : Option Bytes} {body text : Bytes} {size : Nat}
    (h : writeResponse HAVE_ZLIB fuel accept_encoding body = some (text, size)) :
    bodySize text = size := by
  have hplain : ∀ {answer}, some ((response [] body).text, body.length) = some answer →
      bodySize answer.1 = answer.2 := fun heq => by
    rw [← Option.some.inj heq]
    exact bodySize_text (.inl rfl) body
  rw [response_text] at hplain
  cases HAVE_ZLIB with
  | none => exact hplain h
  | some zlib =>
      rw [writeResponse] at h
      split_ifs at h with haccepted
      · obtain ⟨compressed, -, hcompressed⟩ := Option.bind_eq_some_iff.mp h
        by_cases hnil : compressed = []
        · rw [if_neg (not_not.mpr hnil)] at hcompressed
          exact hplain hcompressed
        · rw [if_pos hnil] at hcompressed
          obtain ⟨rfl, rfl⟩ := Prod.mk.inj (Option.some.inj hcompressed)
          have hcoding : ascii "Content-Encoding: gzip\r\n" =
              (gzipCoding.map fieldLine).flatMap (· ++ lineBreak) := by decide
          rw [hcoding, ← response_text]
          exact bodySize_text (.inr rfl) compressed
      · exact hplain h

theorem adds_bodySizes : Adds fun es : List (Event ι) => bodySizes es := fun es es' => by
  show bodySizes (es ++ es') = _
  rw [bodySizes, responses, List.filterMap_append, List.map_append, List.sum_append]
  rfl

/-- Who collects holds the mutex, and nobody has come to the end of it since it began; and what is
left to do for the responses. -/
structure Serving.Keeps (es : List (Event ι)) (s : Serving ι) : Prop where
  mutex : ∀ t, (s.stage t).holds = true → s.collectables_mutex_ = some t
  locked : ∀ t start, s.stage t = .collecting start →
    ∃ es₁ es₂, es = es₁ ++ .locked t :: es₂ ∧ ∀ u own, .collected u own ∉ es₂
  latencies : Owes (fun es => (responses es).length) (fun es => (durations es).length)
    Stage.latencies es s.stage
  bytes : Owes bodySizes bytes Stage.bytes es s.stage
  scrapes : Owes (fun es => (durations es).length) scrapes Stage.scrapes es s.stage

theorem Serving.keeps_serving (now : Int) : (m.serving now : Serving ι).Keeps [] where
  mutex _ h := by cases h
  locked _ _ h := by cases h
  latencies := ⟨0, .none, rfl⟩
  bytes := ⟨0, .none, rfl⟩
  scrapes := ⟨0, .none, rfl⟩

theorem Stage.nothing_left {at_ : Stage} (h : at_.updates = false) :
    at_.latencies = 0 ∧ at_.bytes = 0 ∧ at_.scrapes = 0 := by
  cases at_ with
  | responded start bodySize => cases h
  | observed bodySize => cases h
  | transferred => cases h
  | _ => exact ⟨rfl, rfl, rfl⟩

theorem Serving.Keeps.settled (h : s.Keeps es) (hidle : ∀ t, (s.stage t).updates = false) :
    (responses es).length = (durations es).length ∧ bodySizes es = MetricsHandler.bytes es ∧
      (durations es).length = MetricsHandler.scrapes es :=
  ⟨h.latencies.settled fun t => (Stage.nothing_left (hidle t)).1,
    h.bytes.settled fun t => (Stage.nothing_left (hidle t)).2.1,
    h.scrapes.settled fun t => (Stage.nothing_left (hidle t)).2.2⟩

section Move

variable {t : ι} {shared shared' : Registry.Shared} {mutex mutex' : Option ι} {at_ at' : Stage}
  {o : Option (Event ι)}

/-- Only the one who takes the mutex comes to hold it; while another thread holds it, it stays there,
and the thread does not come to the end of collecting. -/
theorem Move.holder (moved : Move m HAVE_ZLIB fuel t shared mutex at_ o shared' mutex' at')
    (hat : at_.holds = true → mutex = some t) :
    (at'.holds = true → mutex' = some t) ∧ ∀ u, u ≠ t → mutex = some u →
      mutex' = some u ∧ ∀ v own, o ≠ some (.collected v own) := by
  have hother : at_.holds = true → ∀ u, u ≠ t → mutex ≠ some u := fun hholds u hne hu =>
    hne (Option.some.inj (hu.symm.trans (hat hholds)))
  cases moved with
  | lock => exact ⟨fun _ => rfl, fun u _ hu => by cases hu⟩
  | collect taken => exact ⟨fun _ => hat rfl, fun u hne hu => absurd hu (hother rfl u hne)⟩
  | unlock taken => exact ⟨fun _ => hat rfl, fun u hne hu => absurd hu (hother rfl u hne)⟩
  | release others =>
      exact ⟨fun hholds => (by cases hholds), fun u hne hu => absurd hu (hother rfl u hne)⟩
  | _ =>
      exact ⟨fun hholds => (by cases hholds), fun u _ hu => ⟨hu, fun v own heq => by cases heq⟩⟩

theorem Move.latencies (moved : Move m HAVE_ZLIB fuel t shared mutex at_ o shared' mutex' at') :
    (responses o.toList).length + at_.latencies = (durations o.toList).length + at'.latencies := by
  cases moved <;> rfl

theorem Move.bytes (moved : Move m HAVE_ZLIB fuel t shared mutex at_ o shared' mutex' at') :
    bodySizes o.toList + at_.bytes = MetricsHandler.bytes o.toList + at'.bytes := by
  cases moved with
  | respond accept_encoding done =>
      rw [Stage.bytes, ← bodySize_writeResponse done]
      exact Nat.add_comm _ 0
  | transfer taken => exact Nat.add_comm 0 _
  | _ => rfl

theorem Move.scrapes (moved : Move m HAVE_ZLIB fuel t shared mutex at_ o shared' mutex' at') :
    (durations o.toList).length + at_.scrapes = MetricsHandler.scrapes o.toList + at'.scrapes := by
  cases moved <;> rfl

end Move

/-! ## Steps and runs -/

variable [DecidableEq ι]

theorem Serving.Keeps.step {o : Option (Event ι)} (h : s.Keeps es)
    (taken : Serving.Step m HAVE_ZLIB fuel s o s') : s'.Keeps (es ++ o.toList) := by
  cases taken with
  | @move shared shared' mutex mutex' stage at_ at' _ t here moved =>
    have hlatencies := h.latencies.update adds_length adds_length here moved.latencies
    have hbytes := h.bytes.update adds_bodySizes adds_sum here moved.bytes
    have hscrapes := h.scrapes.update adds_length adds_sum here moved.scrapes
    have hstage : ∀ u, (stage u).holds = true → mutex = some u := h.mutex
    obtain ⟨hself, hother⟩ := moved.holder fun hholds => hstage t (by rwa [here])
    refine ⟨fun u hu => ?_, fun u start hu => ?_, hlatencies, hbytes, hscrapes⟩
    · replace hu : (Function.update stage t at' u).holds = true := hu
      by_cases heq : u = t
      · subst heq
        rw [Function.update_self] at hu
        exact hself hu
      · rw [Function.update_of_ne heq] at hu
        exact (hother u heq (hstage u hu)).1
    · replace hu : Function.update stage t at' u = .collecting start := hu
      by_cases heq : u = t
      · subst heq
        rw [Function.update_self] at hu
        cases moved with
        | lock => exact ⟨es, [], rfl, fun _ _ => List.not_mem_nil⟩
        | collect taken =>
            obtain ⟨es₁, es₂, hes, hnone⟩ := h.locked u _ here
            exact ⟨es₁, es₂, (List.append_nil es).trans hes, hnone⟩
        | _ => cases hu
      · rw [Function.update_of_ne heq] at hu
        obtain ⟨es₁, es₂, rfl, hnone⟩ := h.locked u start hu
        have hcollected := (hother u heq (hstage u (by rw [hu]; rfl))).2
        refine ⟨es₁, es₂ ++ o.toList, List.append_assoc _ _ _, fun v own hmem => ?_⟩
        rcases List.mem_append.mp hmem with hold | hnew
        · exact hnone v own hold
        · exact hcollected v own (Option.mem_toList.mp hnew)

theorem Serving.Keeps.run {es₀ : List (Event ι)} (h : s.Keeps es₀)
    (hrun : Run (Serving.Step m HAVE_ZLIB fuel) s es s') : s'.Keeps (es₀ ++ es) := by
  induction hrun with
  | init => rwa [List.append_nil]
  | silent _ taken ih =>
      have hnext := ih.step taken
      rwa [Option.toList_none, List.append_nil] at hnext
  | visible _ taken ih =>
      rw [← List.append_assoc]
      exact ih.step taken

/-! ## A request on its own -/

/-- What a scrape of the own registry does without events, the thread that collects it does. -/
theorem collecting_run {shared shared' : Registry.Shared} {events : List Registry.Event}
    (h : Run Registry.Shared.Step shared events shared') (hsilent : events = []) {mutex : Option ι}
    {stage : ι → Stage} {t : ι} {start : Int} (here : stage t = .collecting start) :
    Run (Serving.Step m HAVE_ZLIB fuel) ⟨shared, mutex, stage⟩ [] ⟨shared', mutex, stage⟩ := by
  induction h with
  | init => exact .init
  | @silent es s₁ s₂ _ taken ih =>
      have hmove : Serving.Step m HAVE_ZLIB fuel ⟨s₁, mutex, stage⟩ none
          ⟨s₂, mutex, Function.update stage t (.collecting start)⟩ := .move t here (.collect taken)
      rw [← here, Function.update_eq_self] at hmove
      exact .silent (ih hsilent) hmove
  | visible _ _ _ => exact absurd hsilent (List.append_ne_nil_of_right_ne_nil _ (List.cons_ne_nil _ _))

theorem collects_alone {r r' : Registry} (hinv : r.Inv) {walk : Registry.Walk} {clock : Ptr → Nat → Int}
    {own : List MetricFamily} (hcollect : r.collect walk clock = some (own, r')) {t : ι}
    {stage : ι → Stage} {start : Int} (here : stage t = .waiting start) :
    Run (Serving.Step m HAVE_ZLIB fuel) ⟨⟨r, .outside⟩, none, stage⟩ [.locked t, .collected t own]
      ⟨⟨r', .outside⟩, some t, Function.update stage t (.collected start own)⟩ := by
  have hself := Function.update_self t (Stage.collecting start) stage
  have hstart : Run (Serving.Step m HAVE_ZLIB fuel) ⟨⟨r, .outside⟩, none, stage⟩ [.locked t] _ :=
    .visible .init (.move t here .lock)
  have hcollecting := hstart.trans (collecting_run (Registry.scraping_alone hinv hcollect) rfl hself)
  have hcollected := hcollecting.visible (.move t hself (.unlock .unlock))
  rwa [Function.update_idem] at hcollected

/-- A request on its own sends what `handleGet` collects as one function. -/
theorem responds_alone {r r' : Registry} (hinv : r.Inv) {walk : Registry.Walk} {clock : Ptr → Nat → Int}
    {own : List MetricFamily} (hcollect : r.collect walk clock = some (own, r'))
    {expired : Collectable → Bool} {collect : Collectable → List MetricFamily}
    {handler : MetricsHandler} {registry : Collectable} {rest : List Collectable}
    (hregistered : handler.collectables_ = registry :: rest) (hliving : expired registry = false)
    (hown : collect registry = own) {accept_encoding : Option Bytes} {text : Bytes} {size : Nat}
    (hresponse : writeResponse HAVE_ZLIB fuel accept_encoding
      (TextSerializer.serialize (handler.handleGet expired collect)) = some (text, size)) {t : ι}
    {stage : ι → Stage} {start : Int} (here : stage t = .waiting start) :
    Run (Serving.Step m HAVE_ZLIB fuel) ⟨⟨r, .outside⟩, none, stage⟩
      [.locked t, .collected t own, .responded t text]
      ⟨⟨r', .outside⟩, none, Function.update stage t (.responded start size)⟩ := by
  have hserved : handler.handleGet expired collect = own ++ collectMetrics expired collect rest := by
    have hlocked : WeakList.lock expired registry = some registry :=
      if_neg (by rw [hliving]; exact Bool.false_ne_true)
    rw [handleGet, hregistered, collectMetrics, hlocked]
    exact congrArg (· ++ _) hown
  rw [hserved] at hresponse
  have hcollected : Run (Serving.Step m HAVE_ZLIB fuel) ⟨⟨r, .outside⟩, none, stage⟩
      [.locked t, .collected t own] _ := collects_alone hinv hcollect here
  have hreleased := hcollected.silent (.move t (Function.update_self t _ stage)
    (.release (collectMetrics expired collect rest)))
  rw [Function.update_idem] at hreleased
  have hresponded := hreleased.visible (.move t (Function.update_self t _ stage)
    (.respond accept_encoding hresponse))
  rwa [Function.update_idem] at hresponded

/-! ## Two threads -/

def firstOwn : Own := ⟨1, 2, 3, 4, 5, 6, by decide, by decide⟩

/-- The own registry with its three metrics. -/
def ownRegistry (bytes scrapes : Counter) (latencies : Summary) : Registry where
  insert_behavior_ := .merge
  counters_ := [(1, firstOwn.bytesFamily bytes), (3, firstOwn.scrapesFamily scrapes)]
  summaries_ := [(5, firstOwn.latenciesFamily latencies)]

def both (first second : Stage) : Bool → Stage := fun t => bif t then second else first

theorem update_first (first first' second : Stage) :
    Function.update (both first second) false first' = both first' second := by
  funext t
  cases t <;> rfl

theorem update_second (first second second' : Stage) :
    Function.update (both first second) true second' = both first second' := by
  funext t
  cases t <;> rfl

section Moves

variable {shared shared' : Registry.Shared} {mutex mutex' : Option Bool} {at_ at' other : Stage}
  {o : Option (Event Bool)}

theorem Move.first (moved : Move m HAVE_ZLIB fuel false shared mutex at_ o shared' mutex' at') :
    Serving.Step m HAVE_ZLIB fuel ⟨shared, mutex, both at_ other⟩ o
      ⟨shared', mutex', both at' other⟩ := update_first at_ at' other ▸ .move false rfl moved

theorem Move.second (moved : Move m HAVE_ZLIB fuel true shared mutex at_ o shared' mutex' at') :
    Serving.Step m HAVE_ZLIB fuel ⟨shared, mutex, both other at_⟩ o
      ⟨shared', mutex', both other at'⟩ := update_second other at_ at' ▸ .move true rfl moved

end Moves

section Updates

variable {bytes scrapes : Counter} {latencies : Summary} {place : Registry.Place} {t : Bool}

theorem observed_step {duration : Int} {latencies' : Summary}
    (h : MetricKind.call (.summaryObserve 0 (.fin duration)) latencies = some latencies') :
    Registry.Shared.Step ⟨ownRegistry bytes scrapes latencies, place⟩
      (Event.shared firstOwn (.observed t 0 duration))
      ⟨ownRegistry bytes scrapes latencies', place⟩ := by
  have hcall : (firstOwn.latenciesFamily latencies).callObject 6 (.summaryObserve 0 (.fin duration)) =
      some (firstOwn.latenciesFamily latencies') := by
    show (MetricKind.call (.summaryObserve 0 (.fin duration)) latencies).bind _ = _
    rw [h]
    rfl
  exact .family (show _ = [] ++ _ :: [] from rfl) (.call _ _ hcall) fun heq => by cases heq

theorem transferred_step {size : Nat} : Registry.Shared.Step
    ⟨ownRegistry bytes scrapes latencies, place⟩ (Event.shared firstOwn (.transferred t size))
      ⟨ownRegistry (bytes.incrementBy (size : ℕ)) scrapes latencies, place⟩ :=
  .family (show _ = [] ++ _ :: [(3, firstOwn.scrapesFamily scrapes)] from rfl) (.call _ _ rfl)
    fun heq => by cases heq

theorem counted_step : Registry.Shared.Step
    ⟨ownRegistry bytes scrapes latencies, place⟩ (Event.shared firstOwn (.counted t))
      ⟨ownRegistry bytes scrapes.increment latencies, place⟩ :=
  .family (show _ = [(1, firstOwn.bytesFamily bytes)] ++ _ :: [] from rfl) (.call _ _ rfl)
    fun heq => by cases heq

end Updates

theorem exists_collect {r : Registry} {place : Registry.Place} {events : List Registry.Event}
    (hrun : Run Registry.Shared.Step ⟨.new .merge, .outside⟩ events ⟨r, place⟩)
    (hcollectable : ∀ k, ∀ family ∈ r.getFamilies k, ∀ entry ∈ family.2.metrics_.entries,
      Family.CollectableObject k entry.2.2) :
    ∃ own r', r.collect Registry.inOrder (fun _ _ => 0) = some (own, r') := by
  have hinv := ((Registry.Shared.inv_new .merge).run hrun).registry
  have hrange := Registry.Shared.objects Family.kept_inRange hrun
  obtain ⟨⟨own, r'⟩, hcollect, -⟩ := hinv.collect_families Registry.inOrder (fun _ _ => 0)
    fun k family hfamily entry hentry =>
      (Family.collect_isSome_iff (hrange k family hfamily entry hentry)).mpr
        (hcollectable k family hfamily entry hentry) _
  exact ⟨own, r', hcollect⟩

/-- Both threads send a response before any of the metrics is updated; then the first one updates all
three, and the second one the latencies only. -/
def twoRequests (own : List MetricFamily) (text : Bytes) (size : Nat) : List (Event Bool) :=
  [.request false, .request true, .locked false, .collected false own, .responded false text,
    .locked true, .collected true own, .responded true text, .observed false 0 3,
    .transferred false size, .counted false, .observed true 0 5]

theorem exists_twoRequests : ∃ own text size bytes scrapes latencies,
    latencies.Collectable ∧ Run (Serving.Step firstOwn none 0) (firstOwn.serving 0)
      (twoRequests own text size) ⟨⟨ownRegistry bytes scrapes latencies, .outside⟩, none,
        both .outside (.observed size)⟩ := by
  let r := ownRegistry {} {} (newLatencies 0)
  have hinv : r.Inv := ((Registry.Shared.inv_new .merge).run (run_construction firstOwn 0)).registry
  have hcollect : ∃ own, r.collect Registry.inOrder (fun _ _ => 0) = some (own, r) := ⟨_, rfl⟩
  obtain ⟨own, hcollect⟩ := hcollect
  have hresponse : ∃ text size,
      writeResponse none 0 none (TextSerializer.serialize (own ++ [])) = some (text, size) :=
    ⟨_, _, rfl⟩
  obtain ⟨text, size, hresponse⟩ := hresponse
  have hlatencies : ∃ latencies latencies' : Summary,
      (newLatencies 0).step (.observe 0 (.fin (3 : ℤ))) = some latencies ∧
        latencies.step (.observe 0 (.fin (5 : ℤ))) = some latencies' := ⟨_, _, rfl, rfl⟩
  obtain ⟨latencies, latencies', hfirst, hsecond⟩ := hlatencies
  have hcollectable : latencies'.Collectable := by
    have hnew : Summary.new latencyQuantiles maxAge ageBuckets 0 = .ok (newLatencies 0) := rfl
    have hrange := Summary.new_inRange hnew
    rw [Summary.step_collectable_iff
        (Summary.invariant_step TimeWindowQuantiles.inRange_invariant hrange hfirst) hsecond,
      Summary.step_collectable_iff hrange hfirst]
    decide +kernel
  have hstart : (firstOwn.serving 0 : Serving Bool) = ⟨⟨r, .outside⟩, none, both .outside .outside⟩ := by
    have hstage : (fun _ => Stage.outside) = both .outside .outside := by
      funext t
      cases t <;> rfl
    rw [Own.serving, hstage]
    rfl
  -- Each of them holds the mutex for its scrape only.
  have hresponds : ∀ (t : Bool) (stage : Bool → Stage), stage t = .waiting 0 →
      Run (Serving.Step firstOwn none 0) ⟨⟨r, .outside⟩, none, stage⟩
        [.locked t, .collected t own, .responded t text]
        ⟨⟨r, .outside⟩, none, Function.update stage t (.responded 0 size)⟩ := by
    intro t stage here
    have hcollected : Run (Serving.Step firstOwn none 0) ⟨⟨r, .outside⟩, none, stage⟩
        [.locked t, .collected t own] _ := collects_alone hinv hcollect here
    have hreleased := hcollected.silent (.move t (Function.update_self t _ stage) (.release []))
    rw [Function.update_idem] at hreleased
    have hresponded := hreleased.visible
      (.move t (Function.update_self t _ stage) (.respond none hresponse))
    rwa [Function.update_idem] at hresponded
  have hrequests : Run (Serving.Step firstOwn none 0) (firstOwn.serving 0)
      [.request false, .request true] ⟨⟨r, .outside⟩, none, both (.waiting 0) (.waiting 0)⟩ := by
    rw [hstart]
    exact (Run.init.visible (Move.first (.request 0))).visible (Move.second (.request 0))
  have hresponded := hrequests.trans (hresponds false _ rfl)
  rw [update_first] at hresponded
  have hboth := hresponded.trans (hresponds true _ rfl)
  rw [update_second] at hboth
  have hobserved := hboth.visible (Move.first (.observe 3000 0 (observed_step hfirst)))
  have hcounted := (hobserved.visible (Move.first (.transfer transferred_step))).visible
    (Move.first (.count counted_step))
  have hlast := hcounted.visible (Move.second (.observe 5000 0 (observed_step hsecond)))
  exact ⟨own, text, size, _, _, latencies', hcollectable, hlast⟩

/-- The first thread serves another request, and the second one goes on while the own registry is
collected for it. -/
def secondRequest (own : List MetricFamily) (text : Bytes) (size : Nat) : List (Event Bool) :=
  twoRequests own text size ++ [.request false, .locked false, .transferred true size]

theorem exists_secondRequest : ∃ own text size own' s,
    Run (Serving.Step firstOwn none 0) (firstOwn.serving 0)
      (secondRequest own text size ++ [.collected false own']) s := by
  obtain ⟨own, text, size, bytes, scrapes, latencies, hcollectable, hrun⟩ := exists_twoRequests
  have hlocked := (hrun.visible (Move.first (.request 6000))).visible (Move.first .lock)
  have htransferred := hlocked.visible (Move.second (.transfer transferred_step))
  let r := ownRegistry (bytes.incrementBy (size : ℕ)) scrapes latencies
  have hregistry : Run Registry.Shared.Step ⟨.new .merge, .outside⟩ _ ⟨r, .collectAll r.order []⟩ :=
    (run_construction firstOwn 0).trans (shared_run htransferred)
  obtain ⟨own', r', hcollect⟩ := exists_collect hregistry fun k family hfamily entry hentry => by
    cases k with
    | summary =>
        obtain rfl := List.mem_singleton.mp hfamily
        obtain rfl := List.mem_singleton.mp hentry
        exact hcollectable
    | _ => exact Family.collectable_of_ne_summary (by decide) _
  have hinv := ((Registry.Shared.inv_new .merge).run hregistry).registry
  have hcollecting := htransferred.trans
    (collecting_run (t := false) (Registry.scraping_alone hinv hcollect) rfl rfl)
  have hcollected := hcollecting.visible (Move.first (.unlock .unlock))
  refine ⟨own, text, size, own', ⟨⟨r', .outside⟩, some false, both (.collected 6000 own') .transferred⟩,
    ?_⟩
  simpa only [secondRequest, List.append_assoc, List.cons_append, List.nil_append, List.append_nil]
    using hcollected

/-! ## What the metrics say of the requests -/

/-- The last event is the end of a scrape: the run before it is one up to where the scrape has the
mutex, and one in which nobody else scrapes. -/
theorem collected_split {now : Int} {t : ι} {own : List MetricFamily}
    (h : Run (Serving.Step m HAVE_ZLIB fuel) (m.serving now) (es ++ [.collected t own]) s) :
    ∃ es₁ es₂ r after, es = es₁ ++ .locked t :: es₂ ∧ (∀ u own, .collected u own ∉ es₂) ∧
      Run Registry.Shared.Step ⟨m.registry now, .outside⟩ (es₁.filterMap (Event.shared m)) ⟨r, .outside⟩ ∧
      Run Registry.Shared.Step ⟨r, .collectAll r.order []⟩
        (es₂.filterMap (Event.shared m) ++ [.collect own]) after := by
  obtain ⟨s₂, s₃, hcollecting, hstep, -⟩ := h.split
  have hkeeps := (Serving.keeps_serving (m := m) now).run hcollecting
  cases hstep with
  | @move shared shared' mutex mutex' stage at_ at' _ t' here moved =>
  cases moved with
  | unlock taken =>
  obtain ⟨es₁, es₂, rfl, hnone⟩ := hkeeps.locked _ _ here
  obtain ⟨s₀, s₁, hbefore, hlock, hafter⟩ := hcollecting.split
  cases hlock with
  | @move _ _ _ _ _ _ _ _ _ here' moved' =>
  cases moved' with
  | @lock r start =>
  exact ⟨es₁, es₂, r, shared', rfl, hnone, shared_run hbefore, .visible (shared_run hafter) taken⟩

/-- Every scrape reports the bytes, the number and the latencies of the requests that had come so far
at a moment while it was collected; and the latencies at a later moment than the number. -/
theorem reports_requests {now : Int} {t : ι} {own : List MetricFamily}
    (h : Run (Serving.Step m HAVE_ZLIB fuel) (m.serving now) (es ++ [.collected t own]) s) :
    ∃ es₁ es₂ b n l, es = es₁ ++ .locked t :: es₂ ∧ (∀ u own, .collected u own ∉ es₂) ∧
      b <+: es₂ ∧ n <+: l ∧ l <+: es₂ ∧
        Reports own (es₁ ++ .locked t :: b) (es₁ ++ .locked t :: n) (es₁ ++ .locked t :: l) := by
  obtain ⟨es₁, es₂, r, after, rfl, hnone, hbefore, hcollect⟩ := collected_split h
  obtain ⟨b, n, l, hb, hn, hl, hreports⟩ := reports_own (t := t) hbefore hcollect hnone
  exact ⟨es₁, es₂, b, n, l, rfl, hnone, hb, hn, hl, hreports⟩

theorem reports_requests_of_two : ∃ own text size own',
    ∃ es₁ es₂ b n l, secondRequest own text size = es₁ ++ .locked false :: es₂ ∧
      (∀ u own, .collected u own ∉ es₂) ∧ b <+: es₂ ∧ n <+: l ∧ l <+: es₂ ∧
        Reports own' (es₁ ++ .locked false :: b) (es₁ ++ .locked false :: n)
          (es₁ ++ .locked false :: l) := by
  obtain ⟨own, text, size, own', s, hrun⟩ := exists_secondRequest
  exact ⟨own, text, size, own', reports_requests hrun⟩

/-- In every scrape the number of scrapes is at most that of the latencies. -/
theorem scrapes_le_latencies {now : Int} {t : ι} {own : List MetricFamily}
    (h : Run (Serving.Step m HAVE_ZLIB fuel) (m.serving now) es s) (hown : .collected t own ∈ es) :
    ∃ number latencies, Registry.reported own (ascii "exposer_scrapes_total") [] = [number] ∧
      Registry.reported own (ascii "exposer_request_latencies") [] = [latencies] ∧
        number.counter.le latencies.summary.sample_count = true := by
  obtain ⟨before, after, rfl⟩ := List.append_of_mem hown
  rw [List.append_cons] at h
  obtain ⟨s₁, hscrape⟩ := h.front
  obtain ⟨es₁, es₂, r, shared, rfl, hnone, hbefore, hcollect⟩ := collected_split hscrape
  obtain ⟨b, n, l, -, ⟨n', rfl⟩, ⟨l', rfl⟩, hreports⟩ := reports_own (t := t) hbefore hcollect hnone
  obtain ⟨number, hnumber, hn⟩ := hreports.scrapes
  obtain ⟨latencies, hlatencies, hl, -⟩ := hreports.latencies
  refine ⟨number, latencies, hnumber, hlatencies, ?_⟩
  -- Whoever was counted when the number was read had observed a latency before.
  have hfront : Run (Serving.Step m HAVE_ZLIB fuel) (m.serving now)
      ((es₁ ++ .locked t :: n) ++ (n' ++ l' ++ [.collected t own])) s₁ := by
    simpa only [List.append_assoc, List.cons_append] using hscrape
  obtain ⟨s₀, hread⟩ := hfront.front
  have hcounted : scrapes (es₁ ++ .locked t :: n) ≤ (durations (es₁ ++ .locked t :: n)).length :=
    ((Serving.keeps_serving (m := m) now).run hread).scrapes.booked_le
  have hmore : durations (es₁ ++ .locked t :: (n ++ n')) =
      durations (es₁ ++ .locked t :: n) ++ durations n' := by
    rw [← List.cons_append, ← List.append_assoc, durations, List.filterMap_append]
    rfl
  have hle : scrapes (es₁ ++ .locked t :: n) ≤ (durations (es₁ ++ .locked t :: (n ++ n'))).length := by
    rw [hmore, List.length_append]
    exact hcounted.trans (Nat.le_add_right _ _)
  rw [hn, hl]
  exact decide_eq_true (Number.fin_le_fin.mpr (Nat.cast_le.mpr hle))

theorem scrapes_le_latencies_of_two : ∃ own text size own' number latencies,
    scrapes (secondRequest own text size) = 1 ∧ durations (secondRequest own text size) = [3, 5] ∧
      Registry.reported own' (ascii "exposer_scrapes_total") [] = [number] ∧
        Registry.reported own' (ascii "exposer_request_latencies") [] = [latencies] ∧
          number.counter.le latencies.summary.sample_count = true := by
  obtain ⟨own, text, size, own', s, hrun⟩ := exists_secondRequest
  obtain ⟨number, latencies, hreported⟩ :=
    scrapes_le_latencies hrun (List.mem_append_right _ List.mem_cons_self)
  exact ⟨own, text, size, own', number, latencies, rfl, rfl, hreported⟩

/-- No update is lost, and none is made twice: when nobody is between the response and the last of the
updates, the metrics say how many responses have been sent and how long their bodies were. -/
theorem responses_counted {now : Int} (h : Run (Serving.Step m HAVE_ZLIB fuel) (m.serving now) es s)
    (hidle : ∀ t, (s.stage t).updates = false) :
    (∃ f counter, Registry.Stores s.shared.registry (m.bytesFamily {}) m.bytes_transferred_family_
      .empty m.bytes_transferred_ counter f ∧ counter.value = (bodySizes es : ℕ)) ∧
    (∃ f counter, Registry.Stores s.shared.registry (m.scrapesFamily {}) m.num_scrapes_family_
      .empty m.num_scrapes_ counter f ∧ counter.value = ((responses es).length : ℕ)) ∧
    ∃ f summary, Registry.Stores s.shared.registry (m.latenciesFamily (newLatencies now))
      m.request_latencies_family_ .empty m.request_latencies_ summary f ∧
        summary.count_ = (responses es).length ∧ summary.sum_ = ((durations es).sum : ℤ) := by
  have hkeeps := (Serving.keeps_serving (m := m) now).run h
  rw [List.nil_append] at hkeeps
  obtain ⟨hlatencies, hbytes, hscrapes⟩ := hkeeps.settled hidle
  obtain ⟨fb, yb, hfb, hyb⟩ := own_stores (shared_run h) (m.stores_bytes now)
  obtain ⟨fn, yn, hfn, hyn⟩ := own_stores (shared_run h) (m.stores_scrapes now)
  obtain ⟨fl, yl, hfl, hyl⟩ := own_stores (shared_run h) (m.stores_latencies now)
  refine ⟨⟨fb, yb, hfb, (counter_total amount_bytes hyb).trans ?_⟩,
    ⟨fn, yn, hfn, (counter_total amount_scrapes hyn).trans ?_⟩, fl, yl, hfl, ?_⟩
  · rw [hbytes]
    rfl
  · rw [hlatencies, hscrapes]
    rfl
  · obtain ⟨hcount, hsum⟩ := latencies_total hyl
    exact ⟨hcount.trans hlatencies.symm, hsum⟩

theorem responses_counted_of_two : ∃ own text size r,
    let es := twoRequests own text size ++ [.transferred true size, .counted true]
    (responses es).length = 2 ∧ durations es = [3, 5] ∧
    (∃ f counter, Registry.Stores r (firstOwn.bytesFamily {}) 1 .empty 2 counter f ∧
      counter.value = (bodySizes es : ℕ)) ∧
    (∃ f counter, Registry.Stores r (firstOwn.scrapesFamily {}) 3 .empty 4 counter f ∧
      counter.value = ((responses es).length : ℕ)) ∧
    ∃ f summary, Registry.Stores r (firstOwn.latenciesFamily (newLatencies 0)) 5 .empty 6 summary f ∧
      summary.count_ = (responses es).length ∧ summary.sum_ = ((durations es).sum : ℤ) := by
  obtain ⟨own, text, size, bytes, scrapes, latencies, -, hrun⟩ := exists_twoRequests
  have hcounted := (hrun.visible (Move.second (.transfer transferred_step))).visible
    (Move.second (.count counted_step))
  rw [List.append_assoc] at hcounted
  have hidle : ∀ t, (both .outside .outside t).updates = false := fun t => by cases t <;> rfl
  exact ⟨own, text, size, _, rfl, rfl, responses_counted hcounted hidle⟩

end Threads

end MetricsHandler

end PrometheusCpp
