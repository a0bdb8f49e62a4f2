/-
# PrometheusCpp.Core.Summary -- the metric object of `summary.cc`

A summary counts and sums its observations over its whole life and keeps the quantiles of a sliding
window. Every method that reads the clock takes the readings as an argument; `Collect` reads it once
for each of its quantiles. A call returns `none` when the rotation loop does not end.
-/
import PrometheusCpp.Core.ClientMetric
import PrometheusCpp.Core.TimeWindowQuantiles

namespace PrometheusCpp

structure Summary where
  quantiles_ : List CKMSQuantiles.Quantile
  count_ : Nat := 0
  sum_ : Double := 0
  quantile_values_ : TimeWindowQuantiles CKMSQuantiles

namespace Summary

/-- Ticks of `steady_clock::duration` in a millisecond. -/
def ticksPerMillisecond : Int := 1000000

/-- The vector of buckets comes first and refuses a negative size; the division by `age_buckets`
comes after it. -/
def new (quantiles : List CKMSQuantiles.Quantile) (max_age : Int) (age_buckets : Int) (now : Int) :
    Except Exception Summary :=
  if age_buckets < 0 then
    .error (.lengthError "cannot create std::vector larger than max_size()")
  else if age_buckets = 0 then .error .divisionByZero
  else
    .ok { quantiles_ := quantiles
          quantile_values_ := .new (CKMSQuantiles.new quantiles) (max_age * ticksPerMillisecond)
            age_buckets.toNat now }

def observe (s : Summary) (now : Int) (value : Number) : Option Summary := do
  let quantile_values ← s.quantile_values_.insert now value
  some { s with
    count_ := s.count_ + 1
    sum_ := s.sum_ + .num value
    quantile_values_ := quantile_values }

/-- The loop of `Collect`; the entries of `clock` from `reading` on are not yet used. -/
def collectLoop (clock : Nat → Int) : (reading : Nat) → List CKMSQuantiles.Quantile →
    TimeWindowQuantiles CKMSQuantiles →
    Option (List ClientMetric.Quantile × TimeWindowQuantiles CKMSQuantiles)
  | _, [], w => some ([], w)
  | reading, quantile :: rest, w => do
    let (value, w) ← w.get (clock reading) quantile.quantile
    let (quantiles, w) ← collectLoop clock (reading + 1) rest w
    some ({ quantile := quantile.quantile, value } :: quantiles, w)

def collect (s : Summary) (clock : Nat → Int) : Option (ClientMetric × Summary) := do
  let (quantile, quantile_values) ← collectLoop clock 0 s.quantiles_ s.quantile_values_
  some ({ summary := { sample_count := s.count_, sample_sum := s.sum_, quantile } },
    { s with quantile_values_ := quantile_values })

/-! ## Runs -/

inductive Call where
  | observe (now : Int) (value : Number)
  | collect (clock : Nat → Int)

def step (s : Summary) : Call → Option Summary
  | .observe now value => s.observe now value
  | .collect clock => (s.collect clock).map Prod.snd

def run (s : Summary) (calls : List Call) : Option Summary := calls.foldlM step s

/-- Collects in a row, each with its own readings of the clock. -/
def collectAll : List (Nat → Int) → Summary → Option (List ClientMetric)
  | [], _ => some []
  | clock :: clocks, s => do
    let (metric, s) ← s.collect clock
    let metrics ← collectAll clocks s
    some (metric :: metrics)

end Summary

end PrometheusCpp
