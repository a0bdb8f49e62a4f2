/-
# PrometheusCpp.Core.SummaryCollect -- what collecting a summary again returns

`Collect` flushes the current sketch once for every quantile, and every flush runs `compress` on
samples that an earlier pass has already merged. A further pass may merge again, so two collects in
a row can differ (`collectAll_not_always_equal`). A pass that merges nothing leaves the sample
alone, and every other one makes it shorter, so the collects agree as soon as there is nothing left
to merge (`collectAll_agree`).
-/
import PrometheusCpp.Core.CkmsAccuracy
import PrometheusCpp.Core.SummaryRuns
import PrometheusCpp.Lib.Settling

namespace PrometheusCpp

open Settling

/-! ## Repeated flushes -/

namespace CKMSQuantiles

theorem compressLoop_descends (quantiles : List Quantile) (rest : List Item) :
    ∀ (index logicalSize : Nat) (last : Item),
      compressLoop quantiles index logicalSize last rest = last :: rest ∨
        (compressLoop quantiles index logicalSize last rest).length < (last :: rest).length := by
  induction rest with
  | nil => intro index logicalSize last; exact .inl rfl
  | cons current rest ih =>
      intro index logicalSize last
      rw [compressLoop]
      split
      · -- A merge.
        right
        rcases ih index (logicalSize - 1) { current with g := last.g + current.g } with h | h
        · simp [h]
        · simp only [List.length_cons] at h ⊢
          omega
      · rcases ih (index + 1) logicalSize current with h | h
        · exact .inl (by rw [h])
        · right
          simp only [List.length_cons] at h ⊢
          omega

/-- A pass that merges leaves at least one sample. -/
theorem compress_descends : Descends (fun c : CKMSQuantiles => c.sample_.length - 1) compress := by
  intro c
  rcases c with ⟨quantiles, count, sample, buffer⟩
  cases sample with
  | nil => exact .inl rfl
  | cons first rest =>
      by_cases hshort : (first :: rest).length < 2
      · exact .inl (if_pos hshort)
      · have hcompress : compress ⟨quantiles, count, first :: rest, buffer⟩ =
            ⟨quantiles, count, compressLoop quantiles 1 (rest.length + 1) first rest, buffer⟩ :=
          if_neg hshort
        rcases compressLoop_descends quantiles rest 1 (rest.length + 1) first with h | h
        · left
          rw [hcompress, h]
        · right
          rw [hcompress]
          simp only [List.length_cons] at h hshort ⊢
          omega

/-- No two neighbouring samples weigh little enough to be merged. -/
def NothingToMerge (c : CKMSQuantiles) : Prop :=
  ∀ i, (h : i + 1 < c.sample_.length) →
    ¬ Double.le (c.sample_[i].g + c.sample_[i + 1].g + c.sample_[i + 1].delta : Int)
      (allowableError c.quantiles_ (i + 1) c.sample_.length) = true

instance (c : CKMSQuantiles) : Decidable c.NothingToMerge :=
  decidable_of_iff
    (∀ i : Fin (c.sample_.length - 1),
      ¬ Double.le (c.sample_[i.1].g + c.sample_[i.1 + 1].g + c.sample_[i.1 + 1].delta : Int)
        (allowableError c.quantiles_ (i.1 + 1 : Nat) c.sample_.length) = true)
    ⟨fun h i hi => by simpa using h ⟨i, by omega⟩, fun h i => by simpa using h i.1 (by omega)⟩

theorem compressLoop_eq_self (quantiles : List Quantile) (size : Nat) (rest : List Item) :
    ∀ (index : Nat) (last : Item),
      (∀ i, (h : i + 1 < (last :: rest).length) →
        ¬ Double.le ((last :: rest)[i].g + (last :: rest)[i + 1].g +
            (last :: rest)[i + 1].delta : Int)
          (allowableError quantiles (index + i : Nat) size) = true) →
      compressLoop quantiles index size last rest = last :: rest := by
  induction rest with
  | nil => intro index last _; rfl
  | cons current rest ih =>
      intro index last h
      have hfirst := h 0 (by simp)
      simp only [List.getElem_cons_zero, List.getElem_cons_succ, Nat.add_zero, Nat.zero_add]
        at hfirst
      rw [compressLoop, if_neg hfirst, ih (index + 1) current]
      intro i hi
      have := h (i + 1) (Nat.succ_lt_succ hi)
      rwa [show index + (i + 1) = index + 1 + i by omega] at this

theorem NothingToMerge.compress_eq {c : CKMSQuantiles} (h : c.NothingToMerge) :
    c.compress = c := by
  rcases c with ⟨quantiles, count, sample, buffer⟩
  cases sample with
  | nil => rfl
  | cons first rest =>
      unfold compress
      split
      · rfl
      · have hloop : compressSample quantiles (first :: rest) = first :: rest := by
          refine compressLoop_eq_self quantiles (rest.length + 1) rest 1 first fun i hi => ?_
          have := h i hi
          rw [Nat.add_comm 1 i]
          exact_mod_cast this
        rw [hloop]

theorem insertBatch_of_flushed {c : CKMSQuantiles} (h : c.buffer_ = []) : c.insertBatch = c := by
  rw [insertBatch, h]
  rfl

/-- Behind the first flush only `compress` is left to do. -/
theorem flush_iterate (c : CKMSQuantiles) (n : Nat) : flush^[n + 1] c = compress^[n] c.flush := by
  have hpass : ∀ (n : Nat) (c : CKMSQuantiles), c.buffer_ = [] → flush^[n] c = compress^[n] c := by
    intro n
    induction n with
    | zero => intro c _; rfl
    | succ n ih =>
        intro c hc
        have hflush : c.flush = c.compress := by rw [flush, insertBatch_of_flushed hc]
        rw [Function.iterate_succ_apply, Function.iterate_succ_apply, hflush]
        exact ih _ (by rw [compress_buffer, hc])
  rw [Function.iterate_succ_apply]
  exact hpass n c.flush (flush_buffer c)

end CKMSQuantiles

/-! ## The current bucket -/

namespace TimeWindowQuantiles

open CKMSQuantiles

def setCurrent (w : TimeWindowQuantiles CKMSQuantiles) (b : CKMSQuantiles) :
    TimeWindowQuantiles CKMSQuantiles :=
  { w with ckms_quantiles_ := w.ckms_quantiles_.set w.current_bucket_ b }

section Current

variable {w w' : TimeWindowQuantiles CKMSQuantiles} {b : CKMSQuantiles}

theorem setCurrent_self (h : w.currentBucket = some b) : w.setCurrent b = w := by
  obtain ⟨hlt, rfl⟩ := List.getElem?_eq_some_iff.mp h
  simp [setCurrent]

/-- Within an interval of the last rotation there is nothing to rotate. -/
theorem rotate_of_recent {now : Int} (h : now ≤ w.last_rotation_ + w.rotation_interval_) :
    w.rotate now = some w := by
  have hnot : ¬ now - w.last_rotation_ > w.rotation_interval_ := by omega
  cases hrounds : (now - w.last_rotation_).toNat <;> simp [rotate, rotateLoop, hrounds, hnot]

theorem get_of_recent (hr : w.InRange) (c : CKMSQuantiles) {now : Int}
    (h : now ≤ w.last_rotation_ + w.rotation_interval_) (q : Double) :
    (w.setCurrent c).get now q = some (c.flush.select q, w.setCurrent c.flush) := by
  have hrotate : (w.setCurrent c).rotate now = some (w.setCurrent c) := rotate_of_recent h
  have hcurrent : (w.setCurrent c).currentBucket = some c := List.getElem?_set_self hr
  simp only [TimeWindowQuantiles.get, hrotate, hcurrent, Option.bind_eq_bind, Option.bind_some]
  simp [setCurrent, Sketch.get, CKMSQuantiles.get]

end Current

end TimeWindowQuantiles

/-! ## Collects in a row -/

namespace Summary

open CKMSQuantiles TimeWindowQuantiles

/-- What `Collect` returns when its first query finds the sketch `c`. -/
def report (s : Summary) (c : CKMSQuantiles) : ClientMetric where
  summary :=
    { sample_count := s.count_
      sample_sum := s.sum_
      quantile := s.quantiles_.mapIdx fun j q =>
        { quantile := q.quantile, value := (flush^[j + 1] c).select q.quantile } }

section Recent

variable {w : TimeWindowQuantiles CKMSQuantiles} (hr : w.InRange)

include hr

theorem collectLoop_of_recent {clock : Nat → Int}
    (hclock : ∀ i, clock i ≤ w.last_rotation_ + w.rotation_interval_)
    (quantiles : List Quantile) : ∀ (reading : Nat) (c : CKMSQuantiles),
      collectLoop clock reading quantiles (w.setCurrent c) =
        some (quantiles.mapIdx fun j q =>
            { quantile := q.quantile, value := (flush^[j + 1] c).select q.quantile },
          w.setCurrent (flush^[quantiles.length] c)) := by
  induction quantiles with
  | nil => intro reading c; rfl
  | cons quantile rest ih =>
      intro reading c
      rw [collectLoop, get_of_recent hr c (hclock reading), Option.bind_eq_bind, Option.bind_some]
      simp only [ih (reading + 1) c.flush, Option.bind_eq_bind, Option.bind_some, List.mapIdx_cons,
        ← Function.iterate_succ_apply]
      rfl

theorem collect_of_recent (s : Summary) {clock : Nat → Int}
    (hclock : ∀ i, clock i ≤ w.last_rotation_ + w.rotation_interval_) (c : CKMSQuantiles) :
    ({ s with quantile_values_ := w.setCurrent c } : Summary).collect clock =
      some (s.report c,
        { s with quantile_values_ := w.setCurrent (flush^[s.quantiles_.length] c) }) := by
  simp only [collect, collectLoop_of_recent hr hclock, Option.bind_eq_bind, Option.bind_some]
  rfl

theorem collectAll_of_recent (s : Summary) (clocks : List (Nat → Int)) :
    (∀ clock ∈ clocks, ∀ i, clock i ≤ w.last_rotation_ + w.rotation_interval_) →
    ∀ c : CKMSQuantiles, collectAll clocks { s with quantile_values_ := w.setCurrent c } =
      some (clocks.mapIdx fun i _ => s.report (flush^[i * s.quantiles_.length] c)) := by
  induction clocks with
  | nil => intro _ c; rfl
  | cons clock clocks ih =>
      intro hclocks c
      have hrest := ih (fun clock' hmem => hclocks clock' (List.mem_cons_of_mem _ hmem))
        (flush^[s.quantiles_.length] c)
      rw [collectAll, collect_of_recent hr s (hclocks clock List.mem_cons_self) c]
      simp only [Option.bind_eq_bind, Option.bind_some, hrest, List.mapIdx_cons, Nat.zero_mul,
        Function.iterate_zero, id_eq, ← Function.iterate_add_apply, Nat.add_mul, Nat.one_mul]

end Recent

/-- Collects in a row without a rotation boundary in between: the first reading of the first one
brings the window to `w`, and no reading goes beyond the interval that `w` is in. -/
structure Steady (s : Summary) (clock : Nat → Int) (clocks : List (Nat → Int))
    (w : TimeWindowQuantiles CKMSQuantiles) : Prop where
  rotates : s.quantile_values_.rotate (clock 0) = some w
  stays : ∀ clock' ∈ clock :: clocks, ∀ i, clock' i ≤ w.last_rotation_ + w.rotation_interval_

section Steady

variable {s : Summary} {clock : Nat → Int} {clocks : List (Nat → Int)}
  {w : TimeWindowQuantiles CKMSQuantiles} {b : CKMSQuantiles}

/-- The rotation of the first query can be made ahead of the collects. -/
theorem Steady.collectAll_rotated (h : Steady s clock clocks w) (hne : s.quantiles_ ≠ []) :
    collectAll (clock :: clocks) s =
      collectAll (clock :: clocks) { s with quantile_values_ := w } := by
  obtain ⟨quantile, rest, hquantiles⟩ := List.exists_cons_of_ne_nil hne
  have hget : s.quantile_values_.get (clock 0) quantile.quantile =
      w.get (clock 0) quantile.quantile := by
    simp only [TimeWindowQuantiles.get, h.rotates,
      rotate_of_recent (h.stays clock List.mem_cons_self 0)]
  simp only [collectAll, collect, hquantiles, collectLoop, hget]

/-- Without quantiles a collect does not look at the window. -/
theorem collectAll_of_no_quantiles (hnil : s.quantiles_ = []) (clocks : List (Nat → Int))
    (c : CKMSQuantiles) : collectAll clocks s = some (clocks.mapIdx fun _ _ => s.report c) := by
  have hcollect : ∀ clock, s.collect clock = some (s.report c, s) := by
    intro clock
    obtain ⟨quantiles, count, sum, window⟩ := s
    obtain rfl : quantiles = [] := hnil
    rfl
  induction clocks with
  | nil => rfl
  | cons clock clocks ih =>
      simp only [collectAll, hcollect, Option.bind_eq_bind, Option.bind_some, ih, List.mapIdx_cons]

/-- Collect number `i` finds the current sketch with `i` flushes for every quantile behind it. -/
theorem Steady.collectAll_eq (h : Steady s clock clocks w) (hr : w.InRange)
    (hb : w.currentBucket = some b) :
    collectAll (clock :: clocks) s =
      some ((clock :: clocks).mapIdx fun i _ => s.report (flush^[i * s.quantiles_.length] b)) := by
  by_cases hquantiles : s.quantiles_ = []
  · rw [collectAll_of_no_quantiles hquantiles _ b]
    simp [hquantiles]
  · rw [h.collectAll_rotated hquantiles, ← collectAll_of_recent hr s _ h.stays b, setCurrent_self hb]

theorem report_congr {s : Summary} {c c' : CKMSQuantiles}
    (h : ∀ j < s.quantiles_.length, flush^[j + 1] c = flush^[j + 1] c') :
    s.report c = s.report c' := by
  unfold report
  congr 2
  exact List.mapIdx_eq_mapIdx_iff.mpr fun j hj => by rw [h j hj]

end Steady

/-- In every reachable state, collects without an observation or a rotation in between report the
same count and sum; they report the same quantiles as well when there is nothing left to merge in
the samples that the first query flushes, and in any case from the collect on whose number is that of
these samples. -/
theorem collectAll_agree {quantiles : List Quantile} {max_age age_buckets t0 : Int}
    {s₀ s : Summary} {calls : List Call} {clock : Nat → Int} {clocks : List (Nat → Int)}
    {w : TimeWindowQuantiles CKMSQuantiles} (hnew : new quantiles max_age age_buckets t0 = .ok s₀)
    (hrun : run s₀ calls = some s) (hsteady : Steady s clock clocks w) :
    ∃ b metrics, w.currentBucket = some b ∧ collectAll (clock :: clocks) s = some metrics ∧
      metrics.length = clocks.length + 1 ∧
      (∀ m ∈ metrics, m.summary.sample_count = s.count_ ∧ m.summary.sample_sum = s.sum_) ∧
      (b.flush.NothingToMerge → ∀ m ∈ metrics, ∀ m' ∈ metrics, m = m') ∧
      ∀ m ∈ metrics.drop (b.flush.sample_.length - 1),
        ∀ m' ∈ metrics.drop (b.flush.sample_.length - 1), m = m' := by
  have hr : w.InRange := inRange_invariant.rotate
    (invariant_run inRange_invariant calls (new_inRange hnew) hrun) hsteady.rotates
  obtain ⟨b, hb⟩ := hr.exists_bucket
  have hpass : ∀ i j, flush^[j + 1] (flush^[i] b) = compress^[i + j] b.flush := by
    intro i j
    rw [← Function.iterate_add_apply, show j + 1 + i = i + j + 1 by omega, flush_iterate]
  refine ⟨b, _, hb, hsteady.collectAll_eq hr hb, by simp, ?_, ?_, ?_⟩
  · intro m hm
    obtain ⟨i, hi, rfl⟩ := List.mem_mapIdx.mp hm
    exact ⟨rfl, rfl⟩
  · -- Samples that cannot be merged are left as they are by every further flush.
    intro hsettled m hm m' hm'
    obtain ⟨i, hi, rfl⟩ := List.mem_mapIdx.mp hm
    obtain ⟨i', hi', rfl⟩ := List.mem_mapIdx.mp hm'
    refine report_congr fun j _ => ?_
    rw [hpass, hpass, iterate_of_settled hsettled.compress_eq,
      iterate_of_settled hsettled.compress_eq]
  · -- A pass that merges makes the samples fewer and leaves one, so there are fewer such passes.
    intro m hm m' hm'
    obtain ⟨i, hi, rfl⟩ := List.mem_drop_iff_getElem.mp hm
    obtain ⟨i', hi', rfl⟩ := List.mem_drop_iff_getElem.mp hm'
    rw [List.getElem_mapIdx, List.getElem_mapIdx]
    refine report_congr fun j hj => ?_
    -- Every collect flushes at least once, as there is a quantile.
    have hpasses : ∀ i, b.flush.sample_.length - 1 ≤
        (b.flush.sample_.length - 1 + i) * s.quantiles_.length + j := by
      intro i
      have := Nat.le_mul_of_pos_right (b.flush.sample_.length - 1 + i) (Nat.zero_lt_of_lt hj)
      omega
    rw [hpass, hpass]
    exact compress_descends.iterate_eq (hpasses _) (hpasses _)

/-! ## A summary that settles, and one that has not yet -/

/-- The quantile 0.3 with a tolerance of 0.5. -/
def threeTenths : Target where
  quantile := 3 / 10
  error := 1 / 2
  quantile_pos := by norm_num
  quantile_lt_one := by norm_num
  error_nonneg := by norm_num

/-- Five observations with a collect in between, which the targets keep apart. -/
def fiveApart : List Call :=
  [.observe 1 (.fin 4), .observe 2 (.fin 1), .observe 3 (.fin 4), .collect fun _ => 4,
    .observe 5 (.fin 9), .observe 6 (.fin 2)]

/-- None of the five samples can be merged, and three collects report the same. -/
theorem collectAll_agree_of_five : ∃ metric,
    ((new ([medianTarget, ninetiethTarget].map Target.toQuantile) 60000 5 0).toOption.bind
      (run · fiveApart)).bind (collectAll [fun _ => 7, fun _ => 8, fun _ => 9]) =
        some [metric, metric, metric] ∧ metric.summary.sample_count = 5 := by
  let started : Summary :=
    { quantiles_ := [medianTarget, ninetiethTarget].map Target.toQuantile
      quantile_values_ := .new (CKMSQuantiles.new ([medianTarget, ninetiethTarget].map
        Target.toQuantile)) (60000 * ticksPerMillisecond) 5 0 }
  have hnew : new ([medianTarget, ninetiethTarget].map Target.toQuantile) 60000 5 0 =
      .ok started := rfl
  have hfacts : ((run started fiveApart).bind fun s => (s.quantile_values_.rotate 7).map fun w =>
      (s.count_, decide (9 ≤ w.last_rotation_ + w.rotation_interval_),
        w.currentBucket.map fun b => decide b.flush.NothingToMerge)) =
      some (5, true, some true) := by decide +kernel
  obtain ⟨s, hrun, hs⟩ := Option.bind_eq_some_iff.mp hfacts
  obtain ⟨w, hrotates, hw⟩ := Option.map_eq_some_iff.mp hs
  simp only [Prod.mk.injEq, decide_eq_true_eq] at hw
  obtain ⟨hfive, hinterval, hmerge⟩ := hw
  have hstays : ∀ clock' ∈ [(fun _ => 7 : Nat → Int), fun _ => 8, fun _ => 9], ∀ i,
      clock' i ≤ w.last_rotation_ + w.rotation_interval_ := by
    simp only [List.mem_cons, List.not_mem_nil, or_false, forall_eq_or_imp, forall_eq]
    exact ⟨fun _ => le_trans (by decide) hinterval, fun _ => le_trans (by decide) hinterval,
      fun _ => hinterval⟩
  obtain ⟨b, metrics, hb, hcollect, hlength, hcount, hsettled, -⟩ :=
    collectAll_agree hnew hrun ⟨hrotates, hstays⟩
  rw [hb, Option.map_some, Option.some.injEq, decide_eq_true_eq] at hmerge
  obtain ⟨m, m', m'', rfl⟩ := List.length_eq_three.mp hlength
  obtain rfl : m = m' := hsettled hmerge m (by simp) m' (by simp)
  obtain rfl : m = m'' := hsettled hmerge m (by simp) m'' (by simp)
  refine ⟨m, ?_, (hcount m (by simp)).1.trans hfive⟩
  rw [hnew, show (Except.ok started : Except Exception Summary).toOption = some started from rfl,
    Option.bind_some, hrun, Option.bind_some]
  exact hcollect

/-- All readings of the clock in the call are `t`. -/
def Call.ReadsAt (t : Int) : Call → Prop
  | .observe now _ => now = t
  | .collect clock => ∀ i, clock i = t

/-- After 12, a collect, 3 and 12 the quantile 0.3 is first reported as 3 and then as 12, all at one
time. -/
theorem collectAll_not_always_equal :
    ¬ ∀ (targets : List Target) (max_age age_buckets t : Int) (calls : List Call)
        (metrics : List ClientMetric),
      (∀ t ∈ targets, 0 < t.error ∧ t.error < 1) → (∀ call ∈ calls, call.ReadsAt t) →
      (((new (targets.map Target.toQuantile) max_age age_buckets t).toOption.bind
        (run · calls)).bind (collectAll [fun _ => t, fun _ => t])) = some metrics →
      ∀ m ∈ metrics, ∀ m' ∈ metrics, m = m' := by
  intro h
  have herror : ∀ t ∈ [threeTenths], 0 < t.error ∧ t.error < 1 := by
    simp only [List.mem_singleton, forall_eq, threeTenths]
    norm_num
  let calls : List Call :=
    [.observe 0 (.fin 12), .collect fun _ => 0, .observe 0 (.fin 3), .observe 0 (.fin 12)]
  have hreports : (((new ([threeTenths].map Target.toQuantile) 60000 5 0).toOption.bind
      (run · calls)).bind (collectAll [fun _ => 0, fun _ => 0])).map
        (fun metrics => metrics.map fun m => m.summary.quantile.map fun q => q.value) =
      some [[.ofRat 3], [.ofRat 12]] := by
    decide +kernel
  obtain ⟨metrics, hcollect, hvalues⟩ := Option.map_eq_some_iff.mp hreports
  obtain ⟨m, m', rfl⟩ : ∃ m m', metrics = [m, m'] :=
    List.length_eq_two.mp (by simpa using congrArg List.length hvalues)
  have hsame : m = m' := h [threeTenths] 60000 5 0 calls [m, m'] herror
    (by simp [calls, Call.ReadsAt]) hcollect m (by simp) m' (by simp)
  subst hsame
  simp only [List.map_cons, List.map_nil, List.cons.injEq, and_true] at hvalues
  have hdiffer : ([.ofRat 3] : List Double) ≠ [.ofRat 12] := by decide +kernel
  exact hdiffer (hvalues.1.symm.trans hvalues.2)

end Summary

end PrometheusCpp
