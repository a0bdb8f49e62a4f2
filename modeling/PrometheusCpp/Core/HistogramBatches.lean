/-
# PrometheusCpp.Core.HistogramBatches -- batches of any finite amounts

`ObserveMultiple` takes doubles, so an entry may be negative or a fraction. A counter does not change
for a negative amount, and `Collect` converts its running count back to an integer at every bucket.
What is exposed for a bucket is therefore the sum of the integer parts of the counters up to it
(`observeMultiple_allOrNothing`), and not the integer part of the sum of all that was given
(`observeMultiple_not_exact`).
-/
import PrometheusCpp.Core.Histogram
import Mathlib.Algebra.Order.BigOperators.Group.List

namespace PrometheusCpp.Histogram

open BinarySearch

/-! ## What was given -/

/-- A call on a histogram; the amounts of a batch are neither NaN nor infinite. -/
inductive FiniteCall where
  | observe (value : Double)
  | observeMultiple (bucket_increments : List ℚ) (sum_of_values : Double)
  | reset
  | collect

def FiniteCall.toCall : FiniteCall → Call
  | observe value => .observe value
  | observeMultiple bucket_increments sum_of_values =>
    .observeMultiple (bucket_increments.map .ofRat) sum_of_values
  | reset => .reset
  | collect => .collect

def runFinite (h : Histogram) (calls : List FiniteCall) : Histogram :=
  run h (calls.map FiniteCall.toCall)

def logCall (since : List FiniteCall) : FiniteCall → List FiniteCall
  | .reset => []
  | call => since ++ [call]

/-- The calls after the last reset. -/
def sinceReset (calls : List FiniteCall) : List FiniteCall := calls.foldl logCall []

/-- What a call gives a bucket: one for each observation in it, and its entry of a batch that is as
long as there are buckets. -/
def given (buckets : List Double) (bucket : Nat) : FiniteCall → ℚ
  | .observe value =>
    if lowerBound (fun boundary => boundary.lt value) buckets = bucket then 1 else 0
  | .observeMultiple bucket_increments _ =>
    if bucket_increments.length = buckets.length + 1 then bucket_increments.getD bucket 0 else 0
  | .reset => 0
  | .collect => 0

def givenTotal (buckets : List Double) (since : List FiniteCall) (bucket : Nat) : ℚ :=
  (since.map (given buckets bucket)).sum

/-- The total that a counter takes, which is without the negative amounts. -/
def takenTotal (buckets : List Double) (since : List FiniteCall) (bucket : Nat) : ℚ :=
  (since.map fun call => max 0 (given buckets bucket call)).sum

/-- The integer part of everything that was given up to each bucket. -/
def givenCounts (buckets : List Double) (since : List FiniteCall) : List Nat :=
  (List.range (buckets.length + 1)).map fun i =>
    ⌊((List.range (i + 1)).map (givenTotal buckets since)).sum⌋₊

/-- The integer parts of what the counters took, summed up to each bucket. -/
def takenCounts (buckets : List Double) (since : List FiniteCall) : List Nat :=
  (List.range (buckets.length + 1)).map fun i =>
    ((List.range (i + 1)).map fun j => ⌊takenTotal buckets since j⌋₊).sum

/-- The counts that a scrape shows, one for each bucket. -/
def exposedCounts (h : Histogram) : List Nat :=
  h.collect.histogram.bucket.map ClientMetric.Bucket.cumulative_count

theorem runFinite_concat (h : Histogram) (calls : List FiniteCall) (call : FiniteCall) :
    h.runFinite (calls ++ [call]) = step (h.runFinite calls) call.toCall := by
  rw [runFinite, run, List.map_append, List.foldl_append]
  rfl

theorem sinceReset_concat (calls : List FiniteCall) (call : FiniteCall) :
    sinceReset (calls ++ [call]) = logCall (sinceReset calls) call := by
  rw [sinceReset, List.foldl_append]
  rfl

section Total

variable (buckets : List Double) (since : List FiniteCall) (bucket : Nat)

theorem takenTotal_append (call : FiniteCall) :
    takenTotal buckets (since ++ [call]) bucket =
      takenTotal buckets since bucket + max 0 (given buckets bucket call) := by
  rw [takenTotal, List.map_append, List.sum_append, List.map_singleton, List.sum_singleton]
  rfl

theorem takenTotal_nonneg : 0 ≤ takenTotal buckets since bucket := by
  refine List.sum_nonneg fun amount hmem => ?_
  obtain ⟨call, -, rfl⟩ := List.mem_map.mp hmem
  exact le_max_left _ _

/-- Of whole numbers nothing is lost. -/
theorem sum_natCast {xs : List ℚ} (hxs : ∀ x ∈ xs, ∃ n : Nat, x = n) :
    (∃ n : Nat, xs.sum = n) ∧ (xs.map Nat.floor).sum = ⌊xs.sum⌋₊ := by
  induction xs with
  | nil => exact ⟨⟨0, rfl⟩, by simp⟩
  | cons x xs ih =>
      obtain ⟨⟨m, hm⟩, hfloor⟩ := ih fun y hy => hxs y (List.mem_cons_of_mem _ hy)
      obtain ⟨n, rfl⟩ := hxs x List.mem_cons_self
      refine ⟨⟨n + m, by rw [List.sum_cons, hm, Nat.cast_add]⟩, ?_⟩
      rw [List.map_cons, List.sum_cons, List.sum_cons, hfloor, hm, ← Nat.cast_add, Nat.floor_natCast,
        Nat.floor_natCast, Nat.floor_natCast]

variable {buckets since}

theorem takenCounts_eq_givenCounts
    (hwhole : ∀ call ∈ since, ∀ bucket, ∃ n : Nat, given buckets bucket call = n) :
    takenCounts buckets since = givenCounts buckets since := by
  have htaken : takenTotal buckets since = givenTotal buckets since := by
    funext bucket
    refine congrArg List.sum (List.map_congr_left fun call hmem => ?_)
    obtain ⟨n, hn⟩ := hwhole call hmem bucket
    exact max_eq_right (hn ▸ Nat.cast_nonneg n)
  have htotal : ∀ bucket, ∃ n : Nat, givenTotal buckets since bucket = n := by
    intro bucket
    refine (sum_natCast fun x hx => ?_).1
    obtain ⟨call, hmem, rfl⟩ := List.mem_map.mp hx
    exact hwhole call hmem bucket
  rw [takenCounts, givenCounts, htaken]
  refine List.map_congr_left fun i _ => ?_
  rw [← (sum_natCast fun x hx => ?_).2, List.map_map]
  · rfl
  · obtain ⟨bucket, -, rfl⟩ := List.mem_map.mp hx
    exact htotal bucket

end Total

/-! ## The counters -/

/-- A counter that holds a finite value. -/
def counterAt (x : ℚ) : Counter := ⟨⟨.ofRat x⟩⟩

theorem counterAt_increment (x : ℚ) : (counterAt x).increment = counterAt (x + 1) := rfl

/-- Giving a counter an amount adds what is not negative of it. -/
theorem counterAt_incrementBy (x amount : ℚ) :
    (counterAt x).incrementBy (.ofRat amount) = counterAt (x + max 0 amount) := by
  rw [Counter.incrementBy, Double.zero_eq, Double.lt_ofRat]
  by_cases hneg : amount < 0
  · rw [if_pos (decide_eq_true hneg), max_eq_left hneg.le, add_zero]
  · rw [if_neg (by simpa using hneg), max_eq_right (not_lt.mp hneg)]
    rfl

theorem modify_increment (n index : Nat) (total : Nat → ℚ) :
    ((List.range n).map fun j => counterAt (total j)).modify index Counter.increment =
      (List.range n).map fun j => counterAt (total j + if index = j then 1 else 0) := by
  refine List.ext_getElem? fun j => ?_
  rw [List.getElem?_modify, List.getElem?_map, List.getElem?_map]
  by_cases hj : j < n
  · rw [List.getElem?_range hj]
    by_cases hindex : index = j
    · simp [hindex, counterAt_increment]
    · simp [hindex]
  · rw [List.getElem?_eq_none (by simpa using hj)]
    rfl

theorem zipWith_incrementBy_range {n : Nat} {amounts : List ℚ} (hlen : amounts.length = n)
    (total : Nat → ℚ) :
    List.zipWith Counter.incrementBy ((List.range n).map fun j => counterAt (total j))
        (amounts.map .ofRat) =
      (List.range n).map fun j => counterAt (total j + max 0 (amounts.getD j 0)) := by
  have hamounts : amounts = (List.range n).map fun j => amounts.getD j 0 := by
    refine List.ext_getElem (by simp [hlen]) fun j hj _ => ?_
    simp [hj]
  conv_lhs => rw [hamounts, List.map_map, List.zipWith_map, List.zipWith_self]
  refine List.map_congr_left fun j _ => ?_
  exact counterAt_incrementBy _ _

/-! ## Runs -/

/-- Every counter holds the total that it took since the last reset. -/
structure Holds (buckets : List Double) (since : List FiniteCall) (h : Histogram) : Prop where
  boundaries : h.bucket_boundaries_ = buckets
  counters : h.bucket_counts_ =
    (List.range (buckets.length + 1)).map fun j => counterAt (takenTotal buckets since j)

section Run

variable {buckets : List Double} {since : List FiniteCall} {h : Histogram}

theorem Holds.length (hh : Holds buckets since h) : h.bucket_counts_.length = buckets.length + 1 := by
  rw [hh.counters, List.length_map, List.length_range]

theorem new_holds (hnew : new buckets = .ok h) : Holds buckets [] h := by
  obtain ⟨-, rfl⟩ := new_eq_ok hnew
  refine ⟨rfl, ?_⟩
  show List.replicate (buckets.length + 1) ({} : Counter) =
    (List.range (buckets.length + 1)).map fun _ => ({} : Counter)
  rw [List.map_const', List.length_range]

theorem Holds.observe (hh : Holds buckets since h) (value : Double) :
    Holds buckets (since ++ [.observe value]) (h.observe value) := by
  refine ⟨hh.boundaries, ?_⟩
  simp only [Histogram.observe, hh.boundaries, hh.counters, modify_increment]
  refine List.map_congr_left fun j _ => ?_
  rw [takenTotal_append, given]
  congr 2
  split <;> rfl

theorem Holds.observeMultiple (hh : Holds buckets since h) {amounts : List ℚ} {sum : Double}
    {h' : Histogram} (hok : h.observeMultiple (amounts.map .ofRat) sum = .ok h') :
    amounts.length = buckets.length + 1 ∧ h'.sum_ = h.sum_.increment sum ∧
      Holds buckets (since ++ [.observeMultiple amounts sum]) h' := by
  obtain ⟨hsize, rfl⟩ := observeMultiple_eq_ok hok
  rw [List.length_map, hh.length] at hsize
  refine ⟨hsize, rfl, hh.boundaries, ?_⟩
  simp only [hh.counters, zipWith_incrementBy_range hsize]
  refine List.map_congr_left fun j _ => ?_
  rw [takenTotal_append, given, if_pos hsize]

/-- A call that throws has given nothing. -/
theorem Holds.observeMultiple_error (hh : Holds buckets since h) {amounts : List ℚ} {sum : Double}
    {e : Exception} (herror : h.observeMultiple (amounts.map .ofRat) sum = .error e) :
    amounts.length ≠ buckets.length + 1 ∧
      Holds buckets (since ++ [.observeMultiple amounts sum]) h := by
  have hsize : amounts.length ≠ buckets.length + 1 := by
    intro hlen
    rw [Histogram.observeMultiple, List.length_map, hh.length,
      if_neg (not_not.mpr hlen)] at herror
    cases herror
  refine ⟨hsize, hh.boundaries, hh.counters.trans (List.map_congr_left fun j _ => ?_)⟩
  rw [takenTotal_append, given, if_neg hsize, max_self, add_zero]

theorem Holds.reset (hh : Holds buckets since h) : Holds buckets [] h.reset := by
  refine ⟨hh.boundaries, ?_⟩
  simp only [Histogram.reset, hh.counters, List.map_map]
  rfl

theorem Holds.step (hh : Holds buckets since h) (call : FiniteCall) :
    Holds buckets (logCall since call) (Histogram.step h call.toCall) := by
  cases call with
  | observe value => exact hh.observe value
  | observeMultiple amounts sum =>
      simp only [Histogram.step, FiniteCall.toCall, logCall]
      split
      · rename_i h' hok
        exact (hh.observeMultiple hok).2.2
      · rename_i e herror
        exact (hh.observeMultiple_error herror).2
  | reset => exact hh.reset
  | collect =>
      refine ⟨hh.boundaries, hh.counters.trans (List.map_congr_left fun j _ => ?_)⟩
      rw [logCall, takenTotal_append, given, max_self, add_zero]
      intro hreset
      cases hreset

theorem Holds.run (hh : Holds buckets since h) (calls : List FiniteCall) :
    Holds buckets (calls.foldl logCall since) (h.runFinite calls) := by
  rw [runFinite, Histogram.run, List.foldl_map]
  exact List.foldl_rel (r := Holds buckets) hh fun call _ _ _ hh => hh.step call

end Run

/-! ## Collecting -/

/-- Adding a counter's value to the running count adds its integer part. -/
theorem toNat_natCast_add_ofRat (start : Nat) {x : ℚ} (hx : 0 ≤ x) :
    ((start : Double) + .ofRat x).toNat = start + ⌊x⌋₊ := by
  rw [Double.natCast_eq, Double.ofRat_add, Double.toNat,
    Double.toInt_ofRat_of_nonneg (add_nonneg (Nat.cast_nonneg _) hx), Int.floor_natCast_add]
  have := Int.natCast_floor_eq_floor hx
  omega

theorem collectLoop_floor (xs : List ℚ) (hxs : ∀ x ∈ xs, 0 ≤ x) :
    ∀ (start : Nat) (boundaries : List Double),
      (collectLoop start boundaries (xs.map counterAt)).1.map ClientMetric.Bucket.cumulative_count =
        (List.range xs.length).map fun i => start + ((xs.take (i + 1)).map Nat.floor).sum := by
  induction xs with
  | nil => intro start boundaries; rfl
  | cons x xs ih =>
      intro start boundaries
      have hcount : ((start : Double) + (counterAt x).value).toNat = start + ⌊x⌋₊ :=
        toNat_natCast_add_ofRat start (hxs x List.mem_cons_self)
      have hrest := ih (fun y hy => hxs y (List.mem_cons_of_mem _ hy)) (start + ⌊x⌋₊) boundaries.tail
      simp only [List.map_cons, collectLoop, hcount, hrest, List.length_cons,
        List.range_succ_eq_map, List.map_map, List.take_succ_cons, List.sum_cons]
      simp [Function.comp_def, Nat.add_assoc]

theorem Holds.exposedCounts {buckets : List Double} {since : List FiniteCall} {h : Histogram}
    (hh : Holds buckets since h) :
    h.exposedCounts = takenCounts buckets since := by
  let totals := (List.range (buckets.length + 1)).map (takenTotal buckets since)
  have hnonneg : ∀ x ∈ totals, 0 ≤ x := by
    intro x hx
    obtain ⟨j, -, rfl⟩ := List.mem_map.mp hx
    exact takenTotal_nonneg buckets since j
  have hcounters : h.bucket_counts_ = totals.map counterAt := by
    rw [hh.counters, List.map_map]
    rfl
  have hlen : totals.length = buckets.length + 1 := by
    rw [List.length_map, List.length_range]
  show (collectLoop 0 h.bucket_boundaries_ h.bucket_counts_).1.map _ = _
  rw [hcounters, collectLoop_floor totals hnonneg, hlen]
  refine List.map_congr_left fun i hi => ?_
  have hi := List.mem_range.mp hi
  rw [Nat.zero_add, ← List.map_take, List.take_range, Nat.min_eq_left (by omega), List.map_map]
  rfl

/-! ## All or nothing -/

/-- A call of `ObserveMultiple` after a run throws, and then no later `Collect` can tell that it was
made; or the counts exposed are those expected of all calls since the last reset, this one among
them, and the sum has grown by the given sum. -/
def AllOrNothing (expected : List FiniteCall → List Nat) (h : Histogram) (calls : List FiniteCall)
    (bucket_increments : List ℚ) (sum_of_values : ℚ) : Prop :=
  let call := FiniteCall.observeMultiple bucket_increments (.ofRat sum_of_values)
  match (h.runFinite calls).observeMultiple (bucket_increments.map .ofRat)
    (.ofRat sum_of_values) with
  | .error _ =>
    ∀ later : List Call,
      (run (h.runFinite (calls ++ [call])) later).collect = (run (h.runFinite calls) later).collect
  | .ok h' =>
    h' = h.runFinite (calls ++ [call]) ∧
    h'.exposedCounts = expected (sinceReset (calls ++ [call])) ∧
    h'.collect.histogram.sample_sum =
      (h.runFinite calls).collect.histogram.sample_sum + .ofRat sum_of_values

/-- After any run, `ObserveMultiple` with finite amounts is all or nothing for what the counters
take; it throws exactly for a vector of another length than there are buckets; and while only whole
numbers are given, it is all or nothing for what was given. -/
theorem observeMultiple_allOrNothing {buckets : List Double} {h : Histogram}
    (hnew : new buckets = .ok h) (calls : List FiniteCall) (bucket_increments : List ℚ)
    (sum_of_values : ℚ) :
    AllOrNothing (takenCounts buckets) h calls bucket_increments sum_of_values ∧
    ((∃ e, (h.runFinite calls).observeMultiple (bucket_increments.map .ofRat)
      (.ofRat sum_of_values) = .error e) ↔ bucket_increments.length ≠ buckets.length + 1) ∧
    ((∀ call ∈ sinceReset
        (calls ++ [.observeMultiple bucket_increments (.ofRat sum_of_values)]),
          ∀ bucket, ∃ n : Nat, given buckets bucket call = n) →
      AllOrNothing (givenCounts buckets) h calls bucket_increments sum_of_values) := by
  have hbefore : Holds buckets (sinceReset calls) (h.runFinite calls) :=
    (new_holds hnew).run calls
  have htaken : AllOrNothing (takenCounts buckets) h calls bucket_increments sum_of_values := by
    simp only [AllOrNothing]
    split
    · rename_i e herror
      intro later
      rw [runFinite_concat, FiniteCall.toCall, step, herror]
    · rename_i h' hok
      obtain ⟨-, hsum, hafter⟩ := hbefore.observeMultiple hok
      refine ⟨?_, ?_, ?_⟩
      · rw [runFinite_concat, FiniteCall.toCall, step, hok]
      · rw [sinceReset_concat]
        exact hafter.exposedCounts
      · show h'.sum_.value = _
        rw [hsum]
        rfl
  refine ⟨htaken, ⟨?_, fun hsize => ?_⟩, fun hwhole => ?_⟩
  · rintro ⟨e, herror⟩
    exact (hbefore.observeMultiple_error herror).1
  · cases hcall : (h.runFinite calls).observeMultiple (bucket_increments.map .ofRat)
      (.ofRat sum_of_values) with
    | error e => exact ⟨e, rfl⟩
    | ok h' => exact absurd (hbefore.observeMultiple hcall).1 hsize
  · simpa only [AllOrNothing, takenCounts_eq_givenCounts hwhole] using htaken

/-- Boundary 1: a fraction is cut off and an amount below zero is not taken, whole numbers are
counted as given. -/
theorem observeMultiple_allOrNothing_of_two : ∃ h, new [.ofRat 1] = .ok h ∧
    AllOrNothing (takenCounts [.ofRat 1]) h [.observe (.ofRat 1)] [-1, 5 / 2] 4 ∧
    takenCounts [.ofRat 1]
      [.observe (.ofRat 1), .observeMultiple [-1, 5 / 2] (.ofRat 4)] = [1, 3] ∧
    AllOrNothing (givenCounts [.ofRat 1]) h [] [2, 3] 7 := by
  obtain ⟨h, hnew⟩ : ∃ h, new [.ofRat 1] = .ok h := ⟨_, rfl⟩
  refine ⟨h, hnew, (observeMultiple_allOrNothing hnew _ _ _).1, by decide +kernel,
    (observeMultiple_allOrNothing hnew _ _ _).2.2 fun call hcall bucket => ?_⟩
  obtain rfl := List.mem_singleton.mp hcall
  match bucket with
  | 0 => exact ⟨2, rfl⟩
  | 1 => exact ⟨3, rfl⟩
  | _ + 2 => exact ⟨0, rfl⟩

/-- It is not all or nothing for what was given. With boundary 1, two halves are one observation and
are exposed as none, and an amount below zero takes nothing back. -/
theorem observeMultiple_not_exact : ∃ h, new [.ofRat 1] = .ok h ∧
    ¬ AllOrNothing (givenCounts [.ofRat 1]) h [] [1 / 2, 1 / 2] 1 ∧
    ¬ AllOrNothing (givenCounts [.ofRat 1]) h [.observeMultiple [2, 0] (.ofRat 2)] [-1, 0] (-1) := by
  refine ⟨_, rfl, fun hhalves => ?_, fun hnegative => ?_⟩
  · exact absurd hhalves.2.1 (by decide +kernel)
  · exact absurd hnegative.2.1 (by decide +kernel)

end PrometheusCpp.Histogram
