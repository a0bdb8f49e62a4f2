/-
# PrometheusCpp.Core.CkmsTolerance -- the runs whose queries are within the documented tolerance

The scan of `get` can rely on a sample only if what the sample leaves open of its rank is no more
than the tolerance, `eps` times the number of observations, and one. A sample stays in the sketch
while observations come in on either side of it, so the number that counts is the one at which it can
be at the lower edge of the window (`Target.horizon`). `compress` compares with the error function at
a position in the sample instead, which allows up to twice as much, and `insertBatch` takes its deltas
from there. In a run whose rounds and merges all stay within the tolerance, every query of a target is
accurate (`get_accurate`).
-/
import PrometheusCpp.Core.CkmsBudget
import PrometheusCpp.Core.CkmsRanks

namespace PrometheusCpp.CKMSQuantiles

open WeightedList

/-! ## The tolerance -/

/-- The least number of observations, from the `n` there are on, at which a sample with `r`
observations in front of it can be at the lower edge of the target's window: with more observations
behind it where `r` is beyond the edge, with more in front of it where `r` is short of it. A window
whose tolerance is not smaller than the quantile has nothing below it. -/
def Target.horizon (t : Target) (r n : ℚ) : ℚ :=
  max n (max (if t.error < t.quantile then r / (t.quantile - t.error) else 0)
    ((n - 1 - r) / (1 - t.quantile + t.error)))

/-- What the sample leaves open of its rank, between the given weights, is within the tolerance of
every target, and one more. -/
def Within (targets : List Target) (before : Int) (item : Item) (after : Int) : Prop :=
  ∀ t ∈ targets, ((item.g + item.delta : Int) : ℚ) ≤
    t.error * t.horizon before (before + item.g + after : Int) + 1

instance (targets : List Target) (before : Int) (item : Item) (after : Int) :
    Decidable (Within targets before item after) := by
  unfold Within
  infer_instance

theorem Target.error_mul_horizon (t : Target) (r n : ℚ) :
    t.error * t.horizon r n = max (t.error * n)
      (max (t.error * if t.error < t.quantile then r / (t.quantile - t.error) else 0)
        (t.error * ((n - 1 - r) / (1 - t.quantile + t.error)))) := by
  rw [horizon, mul_max_of_nonneg _ _ t.error_nonneg, mul_max_of_nonneg _ _ t.error_nonneg]

theorem Target.window_pos (t : Target) : 0 < 1 - t.quantile + t.error := by
  have := t.quantile_lt_one
  have := t.error_nonneg
  linarith

theorem Target.horizon_mono (t : Target) {r n r' n' : ℚ} (hr : r ≤ r') (hn : n - r ≤ n' - r') :
    t.horizon r n ≤ t.horizon r' n' := by
  refine max_le_max (by linarith) (max_le_max ?_ ?_)
  · split_ifs with hlt
    · exact div_le_div_of_nonneg_right hr (sub_pos.mpr hlt).le
    · exact le_rfl
  · exact div_le_div_of_nonneg_right (by linarith) t.window_pos.le

theorem Within.mono {targets : List Target} {before before' : Int} {item : Item} {after after' : Int}
    (hbefore : before ≤ before') (hafter : after ≤ after') (h : Within targets before item after) :
    Within targets before' item after' := by
  intro t ht
  have hr : (before : ℚ) ≤ before' := Int.cast_le.mpr hbefore
  have hn : (after : ℚ) ≤ after' := Int.cast_le.mpr hafter
  refine (h t ht).trans (add_le_add_left (mul_le_mul_of_nonneg_left ?_ t.error_nonneg) 1)
  apply t.horizon_mono hr
  push_cast
  linarith

/-- The first value of a sketch stands for itself. -/
theorem within_first (targets : List Target) (value : Number) :
    Within targets 0 ⟨value, 1, 0⟩ 0 := by
  intro t _
  have hhorizon : (0 : ℚ) ≤ t.horizon ((0 : Int) : ℚ) ((0 + 1 + 0 : Int) : ℚ) :=
    le_max_of_le_left (by norm_num)
  have hnonneg := mul_nonneg t.error_nonneg hhorizon
  show ((1 + 0 : Int) : ℚ) ≤ _ + 1
  rw [add_zero, Int.cast_one]
  exact le_add_of_nonneg_left hnonneg

/-! ## What the scan needs -/

section Arithmetic

variable (t : Target)

/-- Behind a sample below the window, one within the tolerance does not reach beyond the rank that is
asked for. -/
theorem Target.add_le_desired {r n w : ℚ} (hn : 0 ≤ n)
    (hlow : r < (t.quantile - t.error) * n - 1) (hw : w ≤ t.error * t.horizon r n + 1) :
    r + w ≤ t.quantile * n := by
  have he := t.error_nonneg
  have hq := t.quantile_lt_one
  suffices h : t.error * t.horizon r n ≤ t.quantile * n - r - 1 by linarith
  rw [t.error_mul_horizon]
  have hnow : t.error * n ≤ t.quantile * n - r - 1 := by linarith
  refine max_le hnow (max_le ?_ ?_)
  · refine le_trans (mul_le_mul_of_nonneg_left ?_ he) hnow
    split_ifs with hlt
    · rw [div_le_iff₀ (sub_pos.mpr hlt)]
      linarith
    · exact hn
  · rw [← mul_div_assoc, div_le_iff₀ t.window_pos]
    have hahead : 0 ≤ (n - 1 - r) - (1 - t.quantile + t.error) * n := by linarith
    have := mul_nonneg (sub_nonneg.mpr hq.le) hahead
    linarith

/-- The first sample, within the tolerance, is not above the window. -/
theorem Target.le_upperEdge {n w : ℚ} (hn : 0 ≤ n) (hw : w ≤ t.error * t.horizon 0 n + 1) :
    w ≤ (t.quantile + t.error) * n + 1 := by
  have he := t.error_nonneg
  have hq := t.quantile_pos
  have hq' := t.quantile_lt_one
  suffices h : t.error * t.horizon 0 n ≤ (t.quantile + t.error) * n by linarith
  have hqn : 0 ≤ t.quantile * n := mul_nonneg hq.le hn
  rw [t.error_mul_horizon]
  have hnow : t.error * n ≤ (t.quantile + t.error) * n := by linarith
  refine max_le hnow (max_le ?_ ?_)
  · refine le_trans (mul_le_mul_of_nonneg_left ?_ he) hnow
    simp [hn]
  · rw [← mul_div_assoc, div_le_iff₀ t.window_pos]
    have hrest : 0 ≤ t.quantile * n * (1 - t.quantile) := mul_nonneg hqn (sub_nonneg.mpr hq'.le)
    have hsquare : 0 ≤ t.error * t.error * n := mul_nonneg (mul_nonneg he he) hn
    linarith

end Arithmetic

theorem errorBound_le_allowance {targets : List Target} {t : Target} (ht : t ∈ targets) (r n : ℚ) :
    errorBound targets r n ≤ t.allowance r n := by
  -- The fold never gets above the bound it starts from.
  have hstart : ∀ (targets : List Target) (bound : ℚ),
      targets.foldl (fun bound t => min bound (t.allowance r n)) bound ≤ bound := by
    intro targets
    induction targets with
    | nil => intro bound; exact le_rfl
    | cons t targets ih => intro bound; exact (ih _).trans (min_le_left _ _)
  obtain ⟨front, rest, rfl⟩ := List.append_of_mem ht
  rw [errorBound, List.foldl_append, List.foldl_cons]
  exact (hstart rest _).trans (min_le_right _ _)

/-- The scan does not look beyond the window. -/
theorem rankBound_le {targets : List Target} {t : Target} (ht : t ∈ targets)
    (hnarrow : t.error ≤ 1 - t.quantile) {count size : Nat} (hsize : size ≤ count) :
    rankBound targets t.quantile count size ≤ (t.quantile + t.error) * count := by
  have he := t.error_nonneg
  have hq := t.quantile_pos
  have hq' : 0 < 1 - t.quantile := sub_pos.mpr t.quantile_lt_one
  have hfloor := Int.floor_le (t.quantile * (count : ℚ))
  have hn : (size : ℚ) ≤ count := by exact_mod_cast hsize
  have hbound := errorBound_le_allowance ht (⌊t.quantile * (count : ℚ)⌋ : ℚ) size
  unfold rankBound
  generalize (⌊t.quantile * (count : ℚ)⌋ : ℚ) = desired at hfloor hbound ⊢
  have hhalf : errorBound targets desired size / 2 ≤
      max (t.error * (desired / t.quantile)) (t.error * ((size - desired) / (1 - t.quantile))) := by
    rw [t.allowance_eq_max, mul_assoc] at hbound
    rw [← mul_max_of_nonneg _ _ he]
    linarith
  suffices h : max (t.error * (desired / t.quantile))
      (t.error * ((size - desired) / (1 - t.quantile))) ≤
        (t.quantile + t.error) * count - desired by linarith
  refine max_le ?_ ?_
  · have hle : desired / t.quantile ≤ count := by
      rw [div_le_iff₀ hq]
      linarith
    have := mul_le_mul_of_nonneg_left hle he
    linarith
  · rw [← mul_div_assoc, div_le_iff₀ hq']
    have hmore := mul_le_mul_of_nonneg_left hn he
    have hrest := mul_nonneg (sub_nonneg.mpr hfloor) (sub_nonneg.mpr hnarrow)
    linarith

/-! ## The samples resolve the window -/

theorem upperRank_eq {sample : List Item} : ∀ {i : Nat} (h : i < sample.length),
    upperRank sample i = total Item.g (sample.take i) + sample[i].g + sample[i].delta := by
  induction sample with
  | nil => intro i h; exact absurd h (Nat.not_lt_zero _)
  | cons item rest ih =>
      intro i h
      cases i with
      | zero => simp [upperRank]
      | succ i =>
          rw [upperRank, ih (Nat.lt_of_succ_lt_succ h)]
          simp only [List.take_succ_cons, total_cons, List.getElem_cons_succ]
          omega

section Resolves

variable {targets : List Target} {c : CKMSQuantiles} {log : List Number} {t : Target}

theorem Sketches.length_le_count (h : Sketches c log) : c.sample_.length ≤ log.length := by
  have hlength := length_le_total h.g_pos
  have hweight : total Item.g c.sample_ = log.length := h.weight
  omega

/-- Of what stands in front of a sample, itself and behind it, the sample is within the tolerance. -/
theorem within_getElem (h : Sketches c log) (ht : t ∈ targets)
    (hwithin : Everywhere Item.g (Within targets) 0 c.sample_ 0) {i : Nat}
    (hi : i < c.sample_.length) :
    ((c.sample_[i].g + c.sample_[i].delta : Int) : ℚ) ≤
      t.error * t.horizon (total Item.g (c.sample_.take i) : Int) log.length + 1 := by
  have hitem := everywhere_iff_getElem.mp hwithin i hi t ht
  rw [zero_add, add_zero, ← count_eq_total h hi, h.count] at hitem
  exact_mod_cast hitem

/-- Samples that bracket the ranks and are within the tolerance separate what is below the window
from what is above it. -/
theorem resolves_of_within (h : Sketches c log) (ht : t ∈ targets)
    (hreached : Ranked (Reached log) 0 c.sample_) (hbounded : Ranked (Bounded log) 0 c.sample_)
    (hwithin : Everywhere Item.g (Within targets) 0 c.sample_ 0) :
    Resolves c.sample_ log (rankBound targets t.quantile log.length c.sample_.length) t := by
  have hn : (0 : ℚ) ≤ log.length := by positivity
  refine ⟨fun i hi hlow => ?_, fun i hi hhigh => ?_⟩
  · -- The next sample starts where the one below the window ends.
    have hupto : total Item.g (c.sample_.take (i + 1)) ≤ atMost log c.sample_[i].value :=
      ranked_iff_getElem.mp hreached i (by omega)
    have hshort : ((total Item.g (c.sample_.take (i + 1)) : Int) : ℚ) <
        (t.quantile - t.error) * log.length - 1 :=
      lt_of_le_of_lt (by exact_mod_cast hupto) hlow
    have hdesired := t.add_le_desired hn hshort (within_getElem h ht hwithin hi)
    rw [← Int.cast_add, ← add_assoc, ← upperRank_eq hi] at hdesired
    have hfloor : ((upperRank c.sample_ (i + 1) : Int) : ℚ) ≤
        (⌊t.quantile * (log.length : ℚ)⌋ : ℚ) := by
      exact_mod_cast Int.le_floor.mpr hdesired
    have hnonneg : 0 ≤ errorBound targets (⌊t.quantile * (log.length : ℚ)⌋ : ℚ) c.sample_.length := by
      refine errorBound_nonneg targets ?_ (by positivity)
      exact_mod_cast Int.floor_nonneg.mpr (mul_nonneg t.quantile_pos.le hn)
    unfold rankBound
    linarith
  · have hupper := ranked_iff_getElem.mp hbounded i hi
    have hbelow : (below log c.sample_[i].value : Int) + 1 ≤ upperRank c.sample_ i := by
      rw [upperRank_eq hi]
      rw [List.take_succ_eq_append_getElem hi, List.map_append, List.sum_append] at hupper
      simpa [Bounded, total] using hupper
    have hbelow' : (below log c.sample_[i].value : ℚ) + 1 ≤ (upperRank c.sample_ i : ℚ) := by
      exact_mod_cast hbelow
    rcases Nat.eq_zero_or_pos i with rfl | hpos
    · -- The first sample stands for the values below its own, so it is not above the window.
      have hfirst := within_getElem h ht hwithin hi
      have hedge := t.le_upperEdge hn (by simpa using hfirst)
      rw [upperRank_eq hi] at hbelow'
      unfold AboveWindow at hhigh
      simp only [List.take_zero, total_nil, zero_add, Int.cast_add] at hbelow'
      linarith
    · refine ⟨i, hpos, le_rfl, ?_⟩
      have hnarrow : t.error ≤ 1 - t.quantile := by
        -- Otherwise the window ends behind the last observation.
        by_contra hwide
        have hall : (below log c.sample_[i].value : ℚ) ≤ log.length := by
          exact_mod_cast List.countP_le_length
        have hmore := mul_le_mul_of_nonneg_right (not_le.mp hwide).le hn
        unfold AboveWindow at hhigh
        linarith
      have hscan := rankBound_le ht hnarrow h.length_le_count
      unfold AboveWindow at hhigh
      linarith

end Resolves

/-! ## Runs -/

/-- The sample a round makes is within the tolerance. -/
def InsertsWithin (targets : List Target) (c : CKMSQuantiles) (value : Number) : Prop :=
  Within targets (total Item.g (c.sample_.take (c.insertIndex value)))
    ⟨value, 1, c.insertDelta value⟩ (total Item.g (c.sample_.drop (c.insertIndex value)))

instance (targets : List Target) (c : CKMSQuantiles) (value : Number) :
    Decidable (InsertsWithin targets c value) := by
  unfold InsertsWithin
  infer_instance

theorem kept_within (targets : List Target) :
    Kept targets (InsertsWithin targets) (Merges (Within targets))
      fun sample _ => Everywhere Item.g (Within targets) 0 sample 0 where
  empty := trivial
  first value := ⟨within_first targets value, trivial⟩
  perm _ h := h
  round _ _ hok h :=
    insertValue_everywhere (fun hbefore hafter hitem => hitem.mono hbefore hafter) hok h
  compress _ _ hmerges h := compress_everywhere hmerges h

/-- In a run whose rounds give deltas that cover the next sample, and whose rounds and merges make
samples within the tolerance, a query of a target is accurate. -/
theorem get_accurate (targets : List Target) (calls : List Call) (t : Target) (ht : t ∈ targets)
    (hne : inserted calls ≠ [])
    (hcovered : RunRounds Covered (new (targets.map Target.toQuantile))
      (calls ++ [.get (.ofRat t.quantile)]))
    (hinserts : RunRounds (InsertsWithin targets) (new (targets.map Target.toQuantile))
      (calls ++ [.get (.ofRat t.quantile)]))
    (hmerges : RunCompressions (Merges (Within targets)) (new (targets.map Target.toQuantile))
      (calls ++ [.get (.ofRat t.quantile)])) :
    Accurate (inserted calls)
      ((run (targets.map Target.toQuantile) calls).get (.ofRat t.quantile)).1 t := by
  have hmem : (run (targets.map Target.toQuantile) calls).flush ∈
      (run (targets.map Target.toQuantile) calls).passes (.get (.ofRat t.quantile)) :=
    List.mem_cons_of_mem _ (List.mem_singleton_self _)
  have hlog : inserted (calls ++ [.get (.ofRat t.quantile)]) = inserted calls := by
    rw [inserted, List.foldl_append]
    rfl
  obtain ⟨-, hs, hreached⟩ := (kept_reached targets).of_mem_passes_of_true hmem
  obtain ⟨-, -, hbounded⟩ := (kept_bounded targets).of_mem_passes hcovered
    (runCompressions_of_forall (fun _ => trivial) _ _) hmem
  obtain ⟨-, -, hwithin⟩ := (kept_within targets).of_mem_passes hinserts hmerges hmem
  rw [hlog] at hs hreached hbounded
  exact (get_accurate_iff targets calls t hne).mpr
    (resolves_of_within hs ht hreached hbounded hwithin)

/-! ## A run that stays within the tolerance, and one that does not -/

/-- A first batch out of order, a query of the median, and a second batch. -/
def twoBatches : List Call :=
  [11, 5, 10, 12, 1, 6, 4, 8, 2, 7, 3, 9].map (fun value => .insert (.fin value)) ++
    .get (.ofRat medianTarget.quantile) :: [15, 13, 16, 14].map fun value => .insert (.fin value)

/-- Both flushes merge samples: of sixteen values the sketch keeps thirteen. -/
theorem get_accurate_of_twoBatches :
    (run ([medianTarget, ninetiethTarget].map Target.toQuantile) twoBatches).flush.sample_.length =
        13 ∧
      ((run ([medianTarget, ninetiethTarget].map Target.toQuantile) twoBatches).get
        (.ofRat ninetiethTarget.quantile)).1 = .num (.fin 14) ∧
      Accurate (inserted twoBatches)
        ((run ([medianTarget, ninetiethTarget].map Target.toQuantile) twoBatches).get
          (.ofRat ninetiethTarget.quantile)).1 ninetiethTarget :=
  ⟨by decide +kernel, by decide +kernel,
    get_accurate [medianTarget, ninetiethTarget] twoBatches ninetiethTarget (by simp) (by decide)
      (by decide +kernel) (by decide +kernel) (by decide +kernel)⟩

/-- After `1, ..., 6` the sketch answers the quantile 0.8 with 3, whose rank 3 is below 3.2. -/
theorem get_not_always_accurate :
    ¬ ∀ (targets : List Target) (calls : List Call) (t : Target),
      (∀ t ∈ targets, 0 < t.error ∧ t.error < 1) → Call.reset ∉ calls → t ∈ targets →
      inserted calls ≠ [] →
      Accurate (inserted calls)
        ((run (targets.map Target.toQuantile) calls).get (.ofRat t.quantile)).1 t := by
  intro h
  have herror : ∀ t ∈ [fourFifths], 0 < t.error ∧ t.error < 1 := by
    simp only [List.mem_singleton, forall_eq, fourFifths]
    norm_num
  obtain ⟨v, hv, -, rank, ⟨-, hrank⟩, hfrom, -⟩ :=
    h [fourFifths] (ascending 6) fourFifths herror (by decide) (by simp) (by decide)
  have hanswer : ((run ([fourFifths].map Target.toQuantile) (ascending 6)).get
      (.ofRat fourFifths.quantile)).1 = .num (.fin 3) := by decide +kernel
  obtain rfl : .fin 3 = v := Double.num.inj (hanswer.symm.trans hv)
  have hmost : atMost (inserted (ascending 6)) (.fin 3) = 3 := by decide +kernel
  have hlength : (inserted (ascending 6)).length = 6 := rfl
  have hle : (rank : ℚ) ≤ 3 := by exact_mod_cast hmost ▸ hrank
  rw [hlength] at hfrom
  simp only [fourFifths] at hfrom
  norm_num at hfrom
  linarith

/-- The merge that makes the 3 stand for three values leaves more open than the tolerance does. -/
example : ¬ RunCompressions (Merges (Within [fourFifths]))
    (new ([fourFifths].map Target.toQuantile))
    (ascending 6 ++ [.get (.ofRat fourFifths.quantile)]) := by decide +kernel

end PrometheusCpp.CKMSQuantiles
