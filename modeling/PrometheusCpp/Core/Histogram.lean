/-
# PrometheusCpp.Core.Histogram -- the metric object of `histogram.cc`

A histogram counts observations per bucket, in one more counter than there are boundaries, and
accumulates the counts when it is collected. The header speaks of half-open intervals
`[b_n, b_n+1)`, but the search is for the first boundary not below the value, so a bucket is
`(b_n-1, b_n]`, which is what the `le` label of the exposition says (`run_collect`).
-/
import PrometheusCpp.Core.ClientMetric
import PrometheusCpp.Lib.BinarySearch
import Mathlib.Tactic.Ring

namespace PrometheusCpp

open BinarySearch

/-! ## The code -/

structure Histogram where
  bucket_boundaries_ : List Double
  bucket_counts_ : List Counter
  sum_ : Gauge := {}
  deriving DecidableEq

namespace Histogram

/-- `adjacent_find` with `greater_equal` finds nothing. -/
def isStrictSorted : List Double → Bool
  | first :: second :: rest => !second.le first && isStrictSorted (second :: rest)
  | _ => true

def new (buckets : List Double) : Except Exception Histogram :=
  if isStrictSorted buckets then
    .ok { bucket_boundaries_ := buckets
          bucket_counts_ := List.replicate (buckets.length + 1) {} }
  else .error (.invalidArgument "Bucket Boundaries must be strictly sorted")

def observe (h : Histogram) (value : Double) : Histogram :=
  let bucketIndex := lowerBound (fun boundary => boundary.lt value) h.bucket_boundaries_
  { h with
    sum_ := h.sum_.increment value
    bucket_counts_ := h.bucket_counts_.modify bucketIndex Counter.increment }

def observeMultiple (h : Histogram) (bucket_increments : List Double) (sum_of_values : Double) :
    Except Exception Histogram :=
  if bucket_increments.length ≠ h.bucket_counts_.length then
    .error (.lengthError
      "The size of bucket_increments was not equal tothe number of buckets in the histogram.")
  else
    .ok { h with
      sum_ := h.sum_.increment sum_of_values
      bucket_counts_ := List.zipWith Counter.incrementBy h.bucket_counts_ bucket_increments }

def reset (h : Histogram) : Histogram :=
  { h with
    bucket_counts_ := h.bucket_counts_.map Counter.reset
    sum_ := h.sum_.set 0 }

/-- The loop of `Collect`, with the boundaries not yet used; behind the last one the bound is
infinity. The sum of an integer and a counter's double is converted back to an integer. -/
def collectLoop : (cumulative_count : Nat) → List Double → List Counter →
    List ClientMetric.Bucket × Nat
  | cumulative_count, _, [] => ([], cumulative_count)
  | cumulative_count, boundaries, counter :: rest =>
    let cumulative_count := ((cumulative_count : Double) + counter.value).toNat
    let (buckets, sample_count) := collectLoop cumulative_count boundaries.tail rest
    ({ cumulative_count, upper_bound := boundaries.headD .posInf } :: buckets, sample_count)

def collect (h : Histogram) : ClientMetric :=
  let (bucket, sample_count) := collectLoop 0 h.bucket_boundaries_ h.bucket_counts_
  { histogram := { sample_count, sample_sum := h.sum_.value, bucket } }

/-! ## Runs -/

inductive Call where
  | observe (value : Double)
  | observeMultiple (bucket_increments : List Double) (sum_of_values : Double)
  | reset
  | collect
  deriving DecidableEq

/-- An `ObserveMultiple` that throws leaves the histogram as it was. -/
def step (h : Histogram) : Call → Histogram
  | .observe value => h.observe value
  | .observeMultiple bucket_increments sum_of_values =>
    match h.observeMultiple bucket_increments sum_of_values with
    | .ok h' => h'
    | .error _ => h
  | .reset => h.reset
  | .collect => h

def run (h : Histogram) (calls : List Call) : Histogram := calls.foldl step h

/-! ## The shape of a histogram -/

/-- Without NaN the check is for strict order. -/
theorem isStrictSorted_num (buckets : List Number) :
    isStrictSorted (buckets.map Double.num) = true ↔ buckets.Pairwise (· < ·) := by
  rw [← List.isChain_iff_pairwise]
  induction buckets with
  | nil => simp [isStrictSorted]
  | cons first rest ih =>
      cases rest with
      | nil => simp [isStrictSorted]
      | cons second rest =>
          simp only [List.map_cons] at ih
          simp [isStrictSorted, ih, List.isChain_cons_cons]

/-- One counter for each boundary and one for what is above all. -/
structure Shaped (buckets : List Double) (h : Histogram) : Prop where
  boundaries : h.bucket_boundaries_ = buckets
  counts : h.bucket_counts_.length = buckets.length + 1

theorem new_eq_ok {buckets : List Double} {h : Histogram} (hnew : new buckets = .ok h) :
    isStrictSorted buckets = true ∧ h =
      { bucket_boundaries_ := buckets
        bucket_counts_ := List.replicate (buckets.length + 1) {} } := by
  unfold new at hnew
  split at hnew
  · rename_i hsorted
    exact ⟨hsorted, (Except.ok.inj hnew).symm⟩
  · cases hnew

theorem observeMultiple_eq_ok {h h' : Histogram} {increments : List Double} {sum : Double}
    (hok : h.observeMultiple increments sum = .ok h') :
    increments.length = h.bucket_counts_.length ∧ h' =
      { h with
        sum_ := h.sum_.increment sum
        bucket_counts_ := List.zipWith Counter.incrementBy h.bucket_counts_ increments } := by
  unfold observeMultiple at hok
  split at hok
  · cases hok
  · rename_i hsize
    exact ⟨not_not.mp hsize, (Except.ok.inj hok).symm⟩

theorem new_shaped {buckets : List Double} {h : Histogram} (hnew : new buckets = .ok h) :
    Shaped buckets h := by
  obtain ⟨-, rfl⟩ := new_eq_ok hnew
  exact ⟨rfl, List.length_replicate⟩

theorem step_shaped {buckets : List Double} {h : Histogram} (hs : Shaped buckets h) (call : Call) :
    Shaped buckets (step h call) := by
  obtain ⟨hboundaries, hcounts⟩ := hs
  cases call with
  | observe value => exact ⟨hboundaries, by simpa [step, observe] using hcounts⟩
  | observeMultiple increments sum =>
      simp only [step]
      split
      · rename_i h' hok
        obtain ⟨hsize, rfl⟩ := observeMultiple_eq_ok hok
        exact ⟨hboundaries, by simpa [hsize] using hcounts⟩
      · exact ⟨hboundaries, hcounts⟩
  | reset => exact ⟨hboundaries, by simpa [step, reset] using hcounts⟩
  | collect => exact ⟨hboundaries, hcounts⟩

theorem run_shaped {buckets : List Double} (calls : List Call) {h : Histogram}
    (hs : Shaped buckets h) : Shaped buckets (run h calls) :=
  List.foldlRecOn calls step hs fun _ hs call _ => step_shaped hs call

/-- The bounds of the collected buckets: the boundaries that the counters use up, and infinity for
every further counter. -/
theorem collectLoop_bounds (counters : List Counter) : ∀ (start : Nat) (boundaries : List Double),
    counters.length = boundaries.length + 1 →
    (collectLoop start boundaries counters).1.map ClientMetric.Bucket.upper_bound =
      boundaries ++ [.posInf] := by
  induction counters with
  | nil => intro start boundaries hlen; simp at hlen
  | cons counter rest ih =>
      intro start boundaries hlen
      cases boundaries with
      | nil =>
          obtain rfl : rest = [] := List.eq_nil_of_length_eq_zero (by simpa using hlen)
          rfl
      | cons boundary boundaries =>
          have := ih ((start : Double) + counter.value).toNat boundaries (by simpa using hlen)
          simpa [collectLoop] using this

/-- The last cumulative count is the sample count. -/
theorem collectLoop_count (counters : List Counter) : ∀ (start : Nat) (boundaries : List Double),
    counters ≠ [] →
    (collectLoop start boundaries counters).1.getLast?.map ClientMetric.Bucket.cumulative_count =
      some (collectLoop start boundaries counters).2 := by
  induction counters with
  | nil => intro start boundaries hne; exact absurd rfl hne
  | cons counter rest ih =>
      intro start boundaries _
      cases rest with
      | nil => rfl
      | cons second rest =>
          have := ih ((start : Double) + counter.value).toNat boundaries.tail (List.cons_ne_nil _ _)
          rw [collectLoop, ← this]
          simp [collectLoop, List.getLast?_cons_cons]

end Histogram

end PrometheusCpp
