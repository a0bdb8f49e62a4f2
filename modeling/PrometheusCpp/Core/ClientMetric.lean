/-
# PrometheusCpp.Core.ClientMetric -- collected metrics, and the scalar metric objects

`ClientMetric` and `MetricFamily` are what `Collect` hands to a serializer. Counter, gauge and info
are the metric objects that hold one number or none; their doubles are exact (`ExactDouble`), and a
method is one atomic step, which is what the `fetch_add` of `Gauge::Change` makes it.
-/
import PrometheusCpp.Core.Names
import PrometheusCpp.Lib.ExactDouble

namespace PrometheusCpp

open ByteString

/-! ## Collected data -/

namespace ClientMetric

structure Label where
  name : Bytes
  value : Bytes
  deriving DecidableEq

structure Quantile where
  quantile : Double := 0
  value : Double := 0
  deriving DecidableEq

structure Summary where
  sample_count : Nat := 0
  sample_sum : Double := 0
  quantile : List Quantile := []
  deriving DecidableEq

structure Bucket where
  cumulative_count : Nat := 0
  upper_bound : Double := 0
  deriving DecidableEq

structure Histogram where
  sample_count : Nat := 0
  sample_sum : Double := 0
  bucket : List Bucket := []
  deriving DecidableEq

end ClientMetric

/-- One value of every kind, of which the family's type selects one. The one-field structs of the
source (`counter.value` and so on) are the fields here. -/
structure ClientMetric where
  label : List ClientMetric.Label := []
  counter : Double := 0
  gauge : Double := 0
  info : Double := 1
  summary : ClientMetric.Summary := {}
  histogram : ClientMetric.Histogram := {}
  untyped : Double := 0
  timestamp_ms : Int := 0
  deriving DecidableEq

structure MetricFamily where
  name : Bytes
  help : Bytes
  type : MetricType := .untyped
  metric : List ClientMetric
  deriving DecidableEq

/-- A `weak_ptr` to a collectable, by its control block. -/
abbrev WeakPtr := Nat

/-- The exceptions the library throws, by their C++ type and text. `divisionByZero` is no
exception: the integer division traps and the program is gone. -/
inductive Exception where
  | invalidArgument (what : String)
  | lengthError (what : String)
  | divisionByZero
  deriving DecidableEq

/-! ## Gauge -/

structure Gauge where
  value_ : Double := 0
  deriving DecidableEq

namespace Gauge

def new (value : Double) : Gauge := ⟨value⟩

def change (gauge : Gauge) (value : Double) : Gauge := ⟨gauge.value_ + value⟩

def increment (gauge : Gauge) (value : Double := 1) : Gauge := gauge.change value

def decrement (gauge : Gauge) (value : Double := 1) : Gauge := gauge.change (-1 * value)

def set (_ : Gauge) (value : Double) : Gauge := ⟨value⟩

/-- `time` is what `std::time` returns. -/
def setToCurrentTime (gauge : Gauge) (time : Int) : Gauge := gauge.set time

def value (gauge : Gauge) : Double := gauge.value_

def collect (gauge : Gauge) : ClientMetric := { gauge := gauge.value }

end Gauge

/-! ## Counter -/

structure Counter where
  gauge_ : Gauge := {}
  deriving DecidableEq

namespace Counter

def increment (counter : Counter) : Counter := ⟨counter.gauge_.increment⟩

/-- `Increment(double)` ignores a negative amount; NaN is not below zero and goes through. -/
def incrementBy (counter : Counter) (val : Double) : Counter :=
  if val.lt 0 then counter else ⟨counter.gauge_.increment val⟩

def reset (counter : Counter) : Counter := ⟨counter.gauge_.set 0⟩

def value (counter : Counter) : Double := counter.gauge_.value

def collect (counter : Counter) : ClientMetric := { counter := counter.value }

end Counter

/-! ## Info -/

structure Info where
  deriving DecidableEq

def Info.collect (_ : Info) : ClientMetric := { info := 1 }

end PrometheusCpp
