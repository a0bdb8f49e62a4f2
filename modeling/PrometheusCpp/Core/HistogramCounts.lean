/-
# PrometheusCpp.Core.HistogramCounts -- what a collected histogram counts

With finite boundaries, finite observations and whole-number batches, a histogram is a list of
natural numbers behind exact doubles. Its prefix sums are counts of observed values, because the
search puts a value behind exactly the boundaries below it; `Collect` accumulates them, and so the
collected histogram is a closed form in what was observed since the last reset (`run_collect`).
-/
import PrometheusCpp.Core.Histogram
import Mathlib.Algebra.Order.BigOperators.Group.List

namespace PrometheusCpp.Histogram

open BinarySearch

/-! ## Whole-number histograms -/

/-- The calls on a histogram with `m` boundaries that stay within whole counts and finite sums. -/
inductive WholeCall (m : Nat) where
  | observe (value : ℚ)
  | observeMultiple (increments : List Nat) (size : increments.length = m + 1) (sum_of_values : ℚ)
  | reset
  | collect

def WholeCall.toCall {m : Nat} : WholeCall m → Call
  | observe value => .observe (.ofRat value)
  | observeMultiple increments _ sum_of_values =>
    .observeMultiple (increments.map fun c : Nat => (c : Double)) (.ofRat sum_of_values)
  | reset => .reset
  | collect => .collect

def runWhole {m : Nat} (h : Histogram) (calls : List (WholeCall m)) : Histogram :=
  run h (calls.map WholeCall.toCall)

/-- What a histogram was given since the last reset. -/
structure Observed where
  values : List ℚ := []
  batches : List (List Nat × ℚ) := []

namespace Observed

def log {m : Nat} (o : Observed) : WholeCall m → Observed
  | .observe value => { o with values := o.values ++ [value] }
  | .observeMultiple increments _ sum_of_values =>
    { o with batches := o.batches ++ [(increments, sum_of_values)] }
  | .reset => {}
  | .collect => o

/-- What the batches count in the first `size` buckets. -/
def batched (o : Observed) (size : Nat) : Nat := (o.batches.map fun b => (b.1.take size).sum).sum

def total (o : Observed) : Nat := o.values.length + (o.batches.map fun b => b.1.sum).sum

def sum (o : Observed) : ℚ := o.values.sum + (o.batches.map Prod.snd).sum

/-- The collected histogram: bucket `i` counts the values up to its boundary and the first `i + 1`
entries of every batch, and the last bucket counts everything. -/
def collected (bounds : List ℚ) (o : Observed) : ClientMetric.Histogram where
  sample_count := o.total
  sample_sum := .ofRat o.sum
  bucket :=
    bounds.mapIdx (fun i boundary =>
      { cumulative_count := o.values.countP (· ≤ boundary) + o.batched (i + 1)
        upper_bound := .ofRat boundary }) ++
      [{ cumulative_count := o.total, upper_bound := .posInf }]

end Observed

def observed {m : Nat} (calls : List (WholeCall m)) : Observed := calls.foldl Observed.log {}

/-! ## The bucket of a value -/

/-- The number of boundaries below the value. -/
def bucketOf (bounds : List ℚ) (value : ℚ) : Nat := bounds.countP (· < value)

theorem partitioned_lt {bounds : List ℚ} (hb : bounds.Pairwise (· < ·)) (value : ℚ) :
    Partitioned (fun boundary => boundary.lt (.ofRat value)) (bounds.map Double.ofRat) := by
  refine List.pairwise_map.mpr (hb.imp fun {a b} hab hlt => ?_)
  simp only [Double.lt_ofRat, decide_eq_true_eq] at hlt ⊢
  exact hab.trans hlt

/-- The search finds the bucket. -/
theorem lowerBound_eq_bucketOf {bounds : List ℚ} (hb : bounds.Pairwise (· < ·)) (value : ℚ) :
    lowerBound (fun boundary => boundary.lt (.ofRat value)) (bounds.map Double.ofRat) =
      bucketOf bounds value := by
  have hpoint := lowerBound_isPartitionPoint (partitioned_lt hb value)
  generalize lowerBound (fun boundary : Double => boundary.lt (.ofRat value))
    (bounds.map Double.ofRat) = i at hpoint
  have hbefore : ∀ b ∈ bounds.take i, decide (b < value) = true := by
    intro b hmem
    have := hpoint.before (.ofRat b) (by rw [← List.map_take]; exact List.mem_map_of_mem hmem)
    simpa using this
  have hafter : ∀ b ∈ bounds.drop i, ¬ decide (b < value) = true := by
    intro b hmem
    have := hpoint.after (.ofRat b) (by rw [← List.map_drop]; exact List.mem_map_of_mem hmem)
    simpa using this
  have hlen : i ≤ bounds.length := by simpa using hpoint.le_length
  unfold bucketOf
  conv_rhs => rw [← List.take_append_drop i bounds]
  rw [List.countP_append, List.countP_eq_length.mpr hbefore, List.countP_eq_zero.mpr hafter,
    List.length_take, Nat.min_eq_left hlen, Nat.add_zero]

theorem bucketOf_le_length (bounds : List ℚ) (value : ℚ) : bucketOf bounds value ≤ bounds.length :=
  List.countP_le_length

/-- A value is in one of the first buckets exactly when it is not above the last of their
boundaries. -/
theorem bucketOf_le_iff {bounds : List ℚ} (hb : bounds.Pairwise (· < ·)) {i : Nat}
    (hi : i < bounds.length) (value : ℚ) : bucketOf bounds value ≤ i ↔ value ≤ bounds[i] := by
  have hpoint := lowerBound_isPartitionPoint (partitioned_lt hb value)
  rw [lowerBound_eq_bucketOf hb] at hpoint
  have hiff := hpoint.lt_iff (j := i) (by simpa using hi)
  simp only [List.getElem_map, Double.lt_ofRat, decide_eq_true_eq] at hiff
  rw [← not_lt, hiff, not_lt]

/-! ## Prefix sums -/

theorem sum_take_modify_succ (counts : List Nat) (i size : Nat) (hi : i < counts.length) :
    ((counts.modify i (· + 1)).take size).sum =
      (counts.take size).sum + if i < size then 1 else 0 := by
  induction counts generalizing i size with
  | nil => simp at hi
  | cons count counts ih =>
      cases size with
      | zero => simp
      | succ size =>
          cases i with
          | zero =>
              simp
              omega
          | succ i =>
              have := ih i size (by simpa using hi)
              simp only [List.modify_succ_cons, List.take_succ_cons, List.sum_cons, this,
                Nat.succ_lt_succ_iff]
              omega

theorem sum_take_zipWith_add (counts increments : List Nat) (size : Nat)
    (h : counts.length = increments.length) :
    ((List.zipWith (· + ·) counts increments).take size).sum =
      (counts.take size).sum + (increments.take size).sum := by
  induction counts generalizing increments size with
  | nil =>
      obtain rfl : increments = [] := List.eq_nil_of_length_eq_zero h.symm
      simp
  | cons count counts ih =>
      cases increments with
      | nil => simp at h
      | cons increment increments =>
          cases size with
          | zero => simp
          | succ size =>
              have := ih increments size (by simpa using h)
              simp only [List.zipWith_cons_cons, List.take_succ_cons, List.sum_cons, this]
              omega

/-! ## The counters -/

/-- A counter that has counted to `n`. -/
def counterOf (n : Nat) : Counter := ⟨⟨n⟩⟩

theorem counterOf_increment (n : Nat) : (counterOf n).increment = counterOf (n + 1) := by
  simp [counterOf, Counter.increment, Gauge.increment, Gauge.change]

theorem counterOf_incrementBy (n c : Nat) :
    (counterOf n).incrementBy (c : Double) = counterOf (n + c) := by
  have hc : ¬ (c : ℚ) < 0 := not_lt.mpr (Nat.cast_nonneg c)
  simp [counterOf, Counter.incrementBy, Gauge.increment, Gauge.change, hc]

theorem zipWith_incrementBy (counts increments : List Nat) :
    List.zipWith Counter.incrementBy (counts.map counterOf)
        (increments.map fun c : Nat => (c : Double)) =
      (List.zipWith (· + ·) counts increments).map counterOf := by
  rw [List.zipWith_map, List.map_zipWith]
  have hpair : (fun n c : Nat => (counterOf n).incrementBy (c : Double)) =
      fun n c => counterOf (n + c) := by
    funext n c
    exact counterOf_incrementBy n c
  rw [hpair]

/-- The counters count the observations: the first `size` of them together those in the first
`size` buckets. -/
structure Counts (bounds : List ℚ) (o : Observed) (h : Histogram) : Prop where
  boundaries : h.bucket_boundaries_ = bounds.map Double.ofRat
  sum : h.sum_ = ⟨.ofRat o.sum⟩
  batches : ∀ b ∈ o.batches, b.1.length = bounds.length + 1
  counters : ∃ counts : List Nat, h.bucket_counts_ = counts.map counterOf ∧
    counts.length = bounds.length + 1 ∧
    ∀ size, (counts.take size).sum = o.values.countP (bucketOf bounds · < size) + o.batched size

section Run

variable {bounds : List ℚ} {o : Observed} {h : Histogram}

theorem counts_empty (bounds : List ℚ) : Counts bounds {}
    { bucket_boundaries_ := bounds.map Double.ofRat
      bucket_counts_ := List.replicate (bounds.length + 1) {} } where
  boundaries := rfl
  sum := by simp [Observed.sum]
  batches := by simp
  counters := ⟨List.replicate (bounds.length + 1) 0, by rw [List.map_replicate]; rfl, by simp,
    fun size => by simp [Observed.batched, List.take_replicate]⟩

theorem Counts.observe (hb : bounds.Pairwise (· < ·)) (hc : Counts bounds o h) (value : ℚ) :
    Counts bounds { o with values := o.values ++ [value] } (h.observe (.ofRat value)) where
  boundaries := hc.boundaries
  sum := by
    simp only [Histogram.observe, hc.sum, Gauge.increment, Gauge.change, Double.ofRat_add,
      Observed.sum, List.sum_append, List.sum_singleton]
    congr 2
    ring
  batches := hc.batches
  counters := by
    obtain ⟨counts, hcounters, hlen, hsums⟩ := hc.counters
    refine ⟨counts.modify (bucketOf bounds value) (· + 1), ?_, by simpa using hlen, fun size => ?_⟩
    · -- The counter that is incremented is that of the value's bucket.
      have hindex := lowerBound_eq_bucketOf hb value
      have hmodify : (counts.map counterOf).modify (bucketOf bounds value) Counter.increment =
          (counts.modify (bucketOf bounds value) (· + 1)).map counterOf := by
        apply List.ext_getElem?
        intro i
        simp only [List.getElem?_modify, List.getElem?_map]
        cases counts[i]? with
        | none => rfl
        | some n => by_cases hi : bucketOf bounds value = i <;> simp [hi, counterOf_increment]
      simp only [Histogram.observe, hc.boundaries, hindex, hcounters, hmodify]
    · have hbucket := bucketOf_le_length bounds value
      rw [sum_take_modify_succ _ _ _ (by omega), hsums size, List.countP_append,
        List.countP_singleton]
      simp only [decide_eq_true_eq, Observed.batched]
      omega

theorem Counts.observeMultiple (hc : Counts bounds o h) (increments : List Nat)
    (hsize : increments.length = bounds.length + 1) (sum : ℚ) :
    ∃ h', h.observeMultiple (increments.map fun c : Nat => (c : Double)) (.ofRat sum) = .ok h' ∧
      Counts bounds { o with batches := o.batches ++ [(increments, sum)] } h' := by
  obtain ⟨counts, hcounters, hlen, hsums⟩ := hc.counters
  have hnot : ¬ (increments.map fun c : Nat => (c : Double)).length ≠ h.bucket_counts_.length := by
    simp [hcounters, hlen, hsize]
  refine ⟨_, if_neg hnot, hc.boundaries, ?_, ?_, ?_⟩
  · simp only [hc.sum, Gauge.increment, Gauge.change, Double.ofRat_add, Observed.sum,
      List.map_append, List.map_singleton, List.sum_append, List.sum_singleton]
    congr 2
    ring
  · intro b hmem
    rcases List.mem_append.mp hmem with hold | hnew
    · exact hc.batches b hold
    · rw [List.mem_singleton.mp hnew]
      exact hsize
  · refine ⟨List.zipWith (· + ·) counts increments, ?_, by simp [hlen, hsize], fun size => ?_⟩
    · rw [hcounters, zipWith_incrementBy]
    · rw [sum_take_zipWith_add _ _ _ (by omega), hsums size]
      simp only [Observed.batched, List.map_append, List.map_singleton, List.sum_append,
        List.sum_singleton]
      omega

theorem Counts.reset (hc : Counts bounds o h) : Counts bounds {} h.reset := by
  obtain ⟨counts, hcounters, hlen, -⟩ := hc.counters
  have hzero : h.bucket_counts_.map Counter.reset = List.replicate (bounds.length + 1) {} := by
    rw [hcounters, List.map_map, ← hlen, ← List.map_const']
    rfl
  have hreset : h.reset =
      { bucket_boundaries_ := bounds.map Double.ofRat
        bucket_counts_ := List.replicate (bounds.length + 1) {} } := by
    simp only [Histogram.reset, hzero, hc.boundaries]
    rfl
  rw [hreset]
  exact counts_empty bounds

theorem Counts.step (hb : bounds.Pairwise (· < ·)) (hc : Counts bounds o h)
    (call : WholeCall bounds.length) :
    Counts bounds (o.log call) (Histogram.step h call.toCall) := by
  cases call with
  | observe value => exact hc.observe hb value
  | observeMultiple increments size sum =>
      obtain ⟨h', hok, hc'⟩ := hc.observeMultiple increments size sum
      simpa only [Histogram.step, WholeCall.toCall, hok, Observed.log] using hc'
  | reset => exact hc.reset
  | collect => exact hc

theorem Counts.run (hb : bounds.Pairwise (· < ·)) (hc : Counts bounds o h)
    (calls : List (WholeCall bounds.length)) :
    Counts bounds (calls.foldl Observed.log o) (h.runWhole calls) := by
  rw [runWhole, Histogram.run, List.foldl_map]
  exact List.foldl_rel (r := Counts bounds) hc fun call _ _ _ hc => hc.step hb call

end Run

/-! ## Collecting -/

theorem collectLoop_counterOf (bounds : List ℚ) : ∀ (start : Nat) (counts : List Nat),
    counts.length = bounds.length + 1 →
    collectLoop start (bounds.map Double.ofRat) (counts.map counterOf) =
      (bounds.mapIdx (fun i boundary =>
        { cumulative_count := start + (counts.take (i + 1)).sum
          upper_bound := .ofRat boundary }) ++
        [{ cumulative_count := start + counts.sum, upper_bound := .posInf }],
      start + counts.sum) := by
  induction bounds with
  | nil =>
      intro start counts hlen
      obtain ⟨n, rfl⟩ := List.length_eq_one_iff.mp hlen
      have hadd : ((start : Double) + (counterOf n).value).toNat = start + n :=
        Double.toNat_natCast_add start n
      simp only [List.map_nil, List.map_singleton, collectLoop, hadd]
      rfl
  | cons boundary bounds ih =>
      intro start counts hlen
      cases counts with
      | nil => simp at hlen
      | cons n counts =>
          have hadd : ((start : Double) + (counterOf n).value).toNat = start + n :=
            Double.toNat_natCast_add start n
          have hrest := ih (start + n) counts (by simpa using hlen)
          simp only [List.map_cons, collectLoop, List.tail_cons, hadd, hrest, List.mapIdx_cons,
            List.take_succ_cons, List.sum_cons, List.take_zero, List.sum_nil, Nat.add_zero,
            Nat.add_assoc, List.headD_cons, List.cons_append]

/-- What is counted in the first `i + 1` buckets are the values up to boundary `i`. -/
theorem countP_bucketOf {bounds : List ℚ} (hb : bounds.Pairwise (· < ·)) {i : Nat}
    (hi : i < bounds.length) (values : List ℚ) :
    values.countP (bucketOf bounds · < i + 1) = values.countP (· ≤ bounds[i]) := by
  refine List.countP_congr fun v _ => ?_
  simp only [decide_eq_true_eq, Nat.lt_succ_iff]
  exact bucketOf_le_iff hb hi v

theorem countP_bucketOf_all (bounds values : List ℚ) :
    values.countP (bucketOf bounds · < bounds.length + 1) = values.length :=
  List.countP_eq_length.mpr fun v _ =>
    decide_eq_true (Nat.lt_succ_iff.mpr (bucketOf_le_length bounds v))

theorem Counts.collect {bounds : List ℚ} {o : Observed} {h : Histogram}
    (hb : bounds.Pairwise (· < ·)) (hc : Counts bounds o h) :
    h.collect.histogram = o.collected bounds := by
  obtain ⟨counts, hcounters, hlen, hsums⟩ := hc.counters
  -- The counters of all buckets together count every observation, and whole batches.
  have hall : counts.sum = o.total := by
    have hfull : (o.batches.map fun b => (b.1.take (bounds.length + 1)).sum) =
        o.batches.map fun b => b.1.sum :=
      List.map_congr_left fun b hmem => by rw [← hc.batches b hmem, List.take_length]
    have := hsums (bounds.length + 1)
    rwa [← hlen, List.take_length, hlen, countP_bucketOf_all, Observed.batched, hfull] at this
  have hloop : collectLoop 0 h.bucket_boundaries_ h.bucket_counts_ =
      ((o.collected bounds).bucket, o.total) := by
    rw [hc.boundaries, hcounters, collectLoop_counterOf bounds 0 counts hlen]
    simp only [Nat.zero_add, hall, Observed.collected]
    congr 2
    refine List.mapIdx_eq_mapIdx_iff.mpr fun i hi => ?_
    rw [hsums (i + 1), countP_bucketOf hb hi]
  simp only [Histogram.collect, hloop, hc.sum]
  rfl

/-! ## The closed form -/

theorem batched_mono (o : Observed) {i j : Nat} (hij : i ≤ j) : o.batched i ≤ o.batched j :=
  List.sum_le_sum fun _ _ => (List.take_sublist_take_left hij).sum_le_sum fun _ _ => Nat.zero_le _

theorem collected_sorted {bounds : List ℚ} (hb : bounds.Pairwise (· < ·)) (o : Observed) :
    ((o.collected bounds).bucket.map ClientMetric.Bucket.cumulative_count).Pairwise (· ≤ ·) := by
  have hcounts : (o.collected bounds).bucket.map ClientMetric.Bucket.cumulative_count =
      bounds.mapIdx (fun i boundary => o.values.countP (· ≤ boundary) + o.batched (i + 1)) ++
        [o.total] := by
    simp [Observed.collected, List.mapIdx_eq_zipIdx_map]
  rw [hcounts, List.pairwise_append]
  refine ⟨List.pairwise_iff_getElem.mpr fun i j hi hj hij => ?_, List.pairwise_singleton _ _, ?_⟩
  · -- A later boundary is larger and has more of every batch up to it.
    rw [List.getElem_mapIdx, List.getElem_mapIdx]
    have hboundary := List.pairwise_iff_getElem.mp hb i j (by simpa using hi) (by simpa using hj) hij
    refine Nat.add_le_add (List.countP_mono_left fun v _ hv => ?_) (batched_mono o (by omega))
    exact decide_eq_true ((of_decide_eq_true hv).trans hboundary.le)
  · intro count hcount last hlast
    obtain ⟨i, hi, rfl⟩ := List.mem_mapIdx.mp hcount
    obtain rfl : last = o.total := List.mem_singleton.mp hlast
    refine Nat.add_le_add List.countP_le_length (List.sum_le_sum fun b _ => ?_)
    exact (List.take_sublist _ _).sum_le_sum fun _ _ => Nat.zero_le _

/-- How many of the values fall into each bucket. -/
def tally (bounds values : List ℚ) : List Nat :=
  (List.range (bounds.length + 1)).map fun i => values.countP (bucketOf bounds · = i)

theorem tally_length (bounds values : List ℚ) :
    (tally bounds values).length = bounds.length + 1 := by
  simp [tally]

theorem sum_take_tally (bounds values : List ℚ) {size : Nat} (hsize : size ≤ bounds.length + 1) :
    ((tally bounds values).take size).sum = values.countP (bucketOf bounds · < size) := by
  induction size with
  | zero => simp
  | succ size ih =>
      have hlt : size < (tally bounds values).length := by
        rw [tally_length]
        omega
      have hentry : (tally bounds values)[size] = values.countP (bucketOf bounds · = size) := by
        simp [tally]
      rw [List.sum_take_succ _ _ hlt, ih (by omega), hentry]
      clear ih hlt hentry hsize
      induction values with
      | nil => rfl
      | cons v values ihv =>
          simp only [List.countP_cons, decide_eq_true_eq] at ihv ⊢
          split <;> split <;> split <;> omega

/-- Observing values one by one or as a batch of their tally collects the same. -/
theorem collected_tally {bounds : List ℚ} (hb : bounds.Pairwise (· < ·)) (o : Observed)
    (values : List ℚ) :
    Observed.collected bounds { o with values := o.values ++ values } =
      Observed.collected bounds
        { o with batches := o.batches ++ [(tally bounds values, values.sum)] } := by
  have htotal : Observed.total { o with values := o.values ++ values } =
      Observed.total { o with batches := o.batches ++ [(tally bounds values, values.sum)] } := by
    have hall := sum_take_tally bounds values (le_refl _)
    rw [← tally_length bounds values, List.take_length, tally_length, countP_bucketOf_all] at hall
    simp only [Observed.total, List.length_append, List.map_append, List.map_singleton,
      List.sum_append, List.sum_singleton, hall]
    omega
  have hsum : Observed.sum { o with values := o.values ++ values } =
      Observed.sum { o with batches := o.batches ++ [(tally bounds values, values.sum)] } := by
    simp only [Observed.sum, List.map_append, List.map_singleton, List.sum_append,
      List.sum_singleton]
    ring
  simp only [Observed.collected, htotal, hsum]
  congr 2
  refine List.mapIdx_eq_mapIdx_iff.mpr fun i hi => ?_
  congr 1
  simp only [Observed.batched, List.countP_append, List.map_append, List.map_singleton,
    List.sum_append, List.sum_singleton]
  rw [sum_take_tally bounds values (by omega), countP_bucketOf hb hi]
  omega

theorem observed_append {m : Nat} (calls calls' : List (WholeCall m)) :
    observed (calls ++ calls') = calls'.foldl Observed.log (observed calls) := by
  rw [observed, List.foldl_append]
  rfl

theorem observed_observe {m : Nat} (calls : List (WholeCall m)) (values : List ℚ) :
    observed (calls ++ values.map WholeCall.observe) =
      { observed calls with values := (observed calls).values ++ values } := by
  rw [observed_append]
  generalize observed calls = o
  induction values generalizing o with
  | nil => simp
  | cons v values ih =>
      rw [List.map_cons, List.foldl_cons, ih, Observed.log, List.append_assoc, List.singleton_append]

/-- Every `Collect` of a run returns the closed form: bucket `i` counts the values observed up to
boundary `i` since the last reset, with the first `i + 1` entries of every batch; the counts never
decrease; and values observed one by one count as the batch of their tally. -/
theorem run_collect (bounds : List ℚ) (hb : bounds.Pairwise (· < ·)) :
    ∃ h, new (bounds.map Double.ofRat) = .ok h ∧
      ∀ calls : List (WholeCall bounds.length),
        (h.runWhole calls).collect.histogram = (observed calls).collected bounds ∧
        ((h.runWhole calls).collect.histogram.bucket.map
          ClientMetric.Bucket.cumulative_count).Pairwise (· ≤ ·) ∧
        ∀ values : List ℚ,
          (h.runWhole (calls ++ values.map WholeCall.observe)).collect.histogram =
            (h.runWhole (calls ++ [WholeCall.observeMultiple (tally bounds values)
              (tally_length bounds values) values.sum])).collect.histogram := by
  have hsorted : isStrictSorted (bounds.map Double.ofRat) = true := by
    have := (isStrictSorted_num (bounds.map Number.fin)).mpr
      (List.pairwise_map.mpr (hb.imp Number.fin_lt_fin.mpr))
    rwa [List.map_map] at this
  have hnew : new (bounds.map Double.ofRat) =
      .ok { bucket_boundaries_ := bounds.map Double.ofRat
            bucket_counts_ := List.replicate (bounds.length + 1) {} } := by
    rw [new, if_pos hsorted, List.length_map]
  have hcollect : ∀ calls : List (WholeCall bounds.length),
      (runWhole _ calls).collect.histogram = (observed calls).collected bounds :=
    fun calls => ((counts_empty bounds).run hb calls).collect hb
  refine ⟨_, hnew, fun calls => ⟨hcollect calls, ?_, fun values => ?_⟩⟩
  · rw [hcollect calls]
    exact collected_sorted hb _
  · rw [hcollect, hcollect, observed_observe, collected_tally hb, observed_append]
    rfl

/-- Boundaries 1 and 2: a value at a boundary is in the bucket below it. -/
theorem run_collect_of_two : ∃ h, new [.ofRat 1, .ofRat 2] = .ok h ∧
    (run h [.observe (.ofRat 1), .observe (.ofRat 3), .collect]).collect.histogram.bucket =
      [⟨1, .ofRat 1⟩, ⟨1, .ofRat 2⟩, ⟨2, .posInf⟩] := by
  obtain ⟨h, hnew, hcollect⟩ := run_collect [1, 2] (by decide +kernel)
  refine ⟨h, hnew, ?_⟩
  let calls : List (WholeCall 2) := [.observe 1, .observe 3, .collect]
  have hform : ((observed calls).collected [1, 2]).bucket =
      [⟨1, .ofRat 1⟩, ⟨1, .ofRat 2⟩, ⟨2, .posInf⟩] := by decide +kernel
  exact (congrArg ClientMetric.Histogram.bucket (hcollect calls).1).trans hform

end PrometheusCpp.Histogram
