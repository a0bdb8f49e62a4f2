/-
# PrometheusCpp.Core.Metric -- the five metric types behind one interface

`Family<T>` and the registry are templates over the metric types. `MetricKind` names the types they
are instantiated at; `Object` is the type of the objects, `metricType` the constant
`T::metric_type` and `collect` the method `T::Collect`. `MetricKind.Call` are the other methods a
caller may use on an object it holds a reference to.
-/
import PrometheusCpp.Core.Histogram
import PrometheusCpp.Core.Summary

namespace PrometheusCpp

inductive MetricKind where
  | counter
  | gauge
  | histogram
  | info
  | summary
  deriving DecidableEq

namespace MetricKind

abbrev Object : MetricKind → Type
  | counter => Counter
  | gauge => Gauge
  | histogram => Histogram
  | info => Info
  | summary => Summary

/-- One value for each of the types. -/
def each {F : MetricKind → Type} (c : F counter) (g : F gauge) (h : F histogram) (i : F info)
    (s : F summary) : (k : MetricKind) → F k
  | counter => c
  | gauge => g
  | histogram => h
  | info => i
  | summary => s

def metricType : MetricKind → MetricType
  | counter => .counter
  | gauge => .gauge
  | histogram => .histogram
  | info => .info
  | summary => .summary

/-- What the constructors make when they do not throw. -/
inductive Constructed : (k : MetricKind) → k.Object → Prop
  | counter : Constructed .counter {}
  | gauge (value : Double) : Constructed .gauge (Gauge.new value)
  | histogram {buckets : List Double} {h : Histogram} (done : Histogram.new buckets = .ok h) :
      Constructed .histogram h
  | info : Constructed .info {}
  | summary {quantiles : List CKMSQuantiles.Quantile} {max_age age_buckets now : Int} {s : Summary}
      (done : Summary.new quantiles max_age age_buckets now = .ok s) : Constructed .summary s

/-- `Collect`, with the readings of the clock it makes. Only a summary changes when it is collected,
and only a summary may not return. -/
def collect : (k : MetricKind) → (clock : Nat → Int) → k.Object → Option (ClientMetric × k.Object)
  | counter, _, c => some (c.collect, c)
  | gauge, _, g => some (g.collect, g)
  | histogram, _, h => some (h.collect, h)
  | info, _, i => some (i.collect, i)
  | summary, clock, s => s.collect clock

/-- The methods that change an object. -/
inductive Call : MetricKind → Type
  | counterIncrement : Call counter
  | counterIncrementBy (val : Double) : Call counter
  | counterReset : Call counter
  | gaugeIncrement (value : Double) : Call gauge
  | gaugeDecrement (value : Double) : Call gauge
  | gaugeSet (value : Double) : Call gauge
  | gaugeSetToCurrentTime (time : Int) : Call gauge
  | histogramCall (call : Histogram.Call) : Call histogram
  | summaryObserve (now : Int) (value : Number) : Call summary

def call : {k : MetricKind} → Call k → k.Object → Option k.Object
  | _, .counterIncrement, c => some (Counter.increment c)
  | _, .counterIncrementBy val, c => some (Counter.incrementBy c val)
  | _, .counterReset, c => some (Counter.reset c)
  | _, .gaugeIncrement value, g => some (Gauge.increment g value)
  | _, .gaugeDecrement value, g => some (Gauge.decrement g value)
  | _, .gaugeSet value, g => some (Gauge.set g value)
  | _, .gaugeSetToCurrentTime time, g => some (Gauge.setToCurrentTime g time)
  | _, .histogramCall call, h => some (Histogram.step h call)
  | _, .summaryObserve now value, s => Summary.observe s now value

/-- The labels are not the object's business. -/
theorem collect_label {k : MetricKind} {clock : Nat → Int} {object : k.Object}
    {r : ClientMetric × k.Object} (h : k.collect clock object = some r) : r.1.label = [] := by
  cases k with
  | counter => exact Option.some.inj h ▸ rfl
  | gauge => exact Option.some.inj h ▸ rfl
  | histogram => exact Option.some.inj h ▸ rfl
  | info => exact Option.some.inj h ▸ rfl
  | summary =>
      obtain ⟨⟨quantile, w⟩, -, hr⟩ := Option.bind_eq_some_iff.mp h
      exact Option.some.inj hr ▸ rfl

end MetricKind

end PrometheusCpp
