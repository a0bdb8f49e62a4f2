/-
# PrometheusCpp.Core.CkmsWeights -- how many values the weights of a sketch stand for

For any targets at all, the weights of the samples are positive and add up to `count_`, and
`count_` and the buffer together are what was inserted since the last reset (`run_weighed`). The
error function never exceeds the sample size by more than one, so neither does a new delta exceed it
by more than two.
-/
import PrometheusCpp.Core.CkmsBudget
import PrometheusCpp.Core.CkmsChecked

namespace PrometheusCpp.CKMSQuantiles

open WeightedList

/-! ## The error function -/

/-- At the ranks `insertBatch` asks for, the error function is not below every `int`. -/
def ErrorFits (quantiles : List Quantile) : Prop :=
  ∀ (rank : Int) (size : Nat), 1 < rank → rank ≤ size →
    Double.le intMin (allowableError quantiles rank size) = true

theorem errorFits_targets (targets : List Target) : ErrorFits (targets.map Target.toQuantile) := by
  intro rank size hrank _
  have hnonneg : 0 ≤ errorBound targets rank size :=
    errorBound_nonneg targets (by exact_mod_cast (by omega : 0 ≤ rank)) (Nat.cast_nonneg _)
  have hmin : ((intMin : Int) : ℚ) ≤ 0 := by exact_mod_cast intMin_neg.le
  rw [allowableError_eq, Double.intCast_eq, Double.le_ofRat]
  exact decide_eq_true (hmin.trans hnonneg)

/-- The error function starts with one more than the size and never grows. -/
theorem allowableError_le (quantiles : List Quantile) (rank : Int) (size : Nat) :
    ∃ m : Number, allowableError quantiles rank size = .num m ∧ m ≤ .fin (size + 1 : Nat) := by
  have fold : ∀ (quantiles : List Quantile) (m : Number), ∃ m' : Number,
      quantiles.foldl
        (fun minError q =>
          let error := quantileError q rank size
          if error.lt minError then error else minError) (Double.num m) = .num m' ∧ m' ≤ m := by
    intro quantiles
    induction quantiles with
    | nil => exact fun m => ⟨m, rfl, le_rfl⟩
    | cons q quantiles ih =>
        intro m
        rw [List.foldl_cons]
        cases herror : quantileError q rank size with
        | nan => exact ih m
        | num e =>
            by_cases hlt : e < m
            · obtain ⟨m', hm', hle⟩ := ih e
              exact ⟨m', by simpa [hlt] using hm', hle.trans hlt.le⟩
            · obtain ⟨m', hm', hle⟩ := ih m
              exact ⟨m', by simpa [hlt] using hm', hle⟩
  exact fold quantiles (.fin (size + 1 : Nat))

/-- The error function of a rank in the sample, rounded down, as an integer. -/
theorem ErrorFits.floor {quantiles : List Quantile} (hfits : ErrorFits quantiles) (rank : Int)
    (size : Nat) (hrank : 1 < rank) (hsize : rank ≤ size) :
    ∃ e : Int, (allowableError quantiles rank size).floor = .ofRat e ∧ intMin ≤ e ∧ e ≤ size + 1 := by
  obtain ⟨m, hm, hle⟩ := allowableError_le quantiles rank size
  have hmin := hfits rank size hrank hsize
  rw [hm] at hmin ⊢
  cases m with
  | negInf => exact absurd hmin (by decide)
  | posInf => exact absurd (show false = true from hle) Bool.false_ne_true
  | fin x =>
      have hlow : ((intMin : Int) : ℚ) ≤ x := by
        rw [Double.intCast_eq] at hmin
        exact of_decide_eq_true ((Double.le_ofRat _ _).symm.trans hmin)
      have hhigh : x ≤ ((size + 1 : Nat) : ℚ) := Number.fin_le_fin.mp hle
      refine ⟨⌊x⌋, rfl, Int.le_floor.mpr hlow, ?_⟩
      have hcast : (⌊x⌋ : ℚ) ≤ ((size + 1 : Nat) : ℚ) := (Int.floor_le x).trans hhigh
      exact_mod_cast hcast

/-! ## Weights and counts -/

/-- The weights add up to the number of values flushed, and no delta is below every `int` or more
than one above that number. -/
structure Weighed (quantiles : List Quantile) (c : CKMSQuantiles) : Prop where
  quantiles : c.quantiles_ = quantiles
  items : ∀ item ∈ c.sample_, 1 ≤ item.g ∧ intMin ≤ item.delta
  weight : total Item.g c.sample_ = c.count_
  delta_le : ∀ item ∈ c.sample_, item.delta ≤ c.count_ + 1

theorem new_weighed (quantiles : List Quantile) : Weighed quantiles (new quantiles) :=
  ⟨rfl, by simp [new], rfl, by simp [new]⟩

section Weighed

variable {quantiles : List Quantile} {c : CKMSQuantiles}

theorem length_le_count (h : Weighed quantiles c) : (c.sample_.length : Int) ≤ c.count_ :=
  h.weight ▸ length_le_total fun item hitem => (h.items item hitem).1

theorem insertDelta_bounds (hfits : ErrorFits quantiles) (hq : c.quantiles_ = quantiles)
    (value : Number) :
    intMin ≤ c.insertDelta value ∧ c.insertDelta value ≤ c.sample_.length + 2 := by
  unfold insertDelta
  split
  · rename_i hinside
    obtain ⟨e, he, hlo, hhi⟩ := hfits.floor (c.insertIndex value + 1) c.sample_.length
      (by omega) (by omega)
    rw [hq, he, Double.toInt_ofRat_intCast]
    omega
  · have hmin := intMin_neg
    omega

theorem insertValue_perm (c : CKMSQuantiles) (value : Number) :
    (c.insertValue value).sample_.Perm (⟨value, 1, c.insertDelta value⟩ :: c.sample_) :=
  insert_at_perm _ _ _

theorem insertValue_weighed (hfits : ErrorFits quantiles) (h : Weighed quantiles c)
    (value : Number) : Weighed quantiles (c.insertValue value) where
  quantiles := h.quantiles
  items item hitem := by
    rcases List.mem_cons.mp ((insertValue_perm c value).mem_iff.mp hitem) with rfl | hold
    · exact ⟨le_rfl, (insertDelta_bounds hfits h.quantiles value).1⟩
    · exact h.items item hold
  weight := by
    have hsum := ((insertValue_perm c value).map Item.g).sum_eq
    have hweight := h.weight
    rw [total] at hweight ⊢
    rw [hsum, List.map_cons, List.sum_cons, hweight]
    show (1 : Int) + c.count_ = ((c.count_ + 1 : Nat) : Int)
    omega
  delta_le item hitem := by
    show item.delta ≤ ((c.count_ + 1 : Nat) : Int) + 1
    rcases List.mem_cons.mp ((insertValue_perm c value).mem_iff.mp hitem) with rfl | hold
    · have hlength := length_le_count h
      have hdelta := (insertDelta_bounds hfits h.quantiles value).2
      show c.insertDelta value ≤ _
      omega
    · have hdelta := h.delta_le item hold
      omega

theorem foldl_insertValue_weighed (hfits : ErrorFits quantiles) (values : List Number) :
    ∀ {c : CKMSQuantiles}, Weighed quantiles c → Weighed quantiles (values.foldl insertValue c) ∧
      (values.foldl insertValue c).count_ = c.count_ + values.length := by
  induction values with
  | nil => exact fun h => ⟨h, rfl⟩
  | cons value values ih =>
      intro c h
      obtain ⟨hw, hcount⟩ := ih (insertValue_weighed hfits h value)
      refine ⟨hw, hcount.trans ?_⟩
      show c.count_ + 1 + values.length = c.count_ + (values.length + 1)
      omega

/-- The first value of an empty sample. -/
theorem weighed_singleton (h : Weighed quantiles c) (hnil : c.sample_ = []) (value : Number) :
    Weighed quantiles { c with sample_ := [⟨value, 1, 0⟩], count_ := c.count_ + 1 } where
  quantiles := h.quantiles
  items item hitem := by
    rw [List.mem_singleton.mp hitem]
    exact ⟨le_rfl, intMin_neg.le⟩
  weight := by
    have hweight := h.weight
    rw [hnil, total_nil] at hweight
    rw [total_cons, total_nil]
    show (1 : Int) + 0 = ((c.count_ + 1 : Nat) : Int)
    omega
  delta_le item hitem := by
    rw [List.mem_singleton.mp hitem]
    show (0 : Int) ≤ ((c.count_ + 1 : Nat) : Int) + 1
    omega

theorem insertBatch_weighed (hfits : ErrorFits quantiles) (h : Weighed quantiles c) :
    Weighed quantiles c.insertBatch ∧ c.insertBatch.count_ = c.count_ + c.buffer_.length := by
  have hlength := (List.perm_insertionSort (· ≤ ·) c.buffer_).length_eq
  obtain ⟨quantiles', count, sample, buffer⟩ := c
  unfold insertBatch
  simp only at hlength ⊢
  cases hsorted : buffer.insertionSort (· ≤ ·) with
  | nil =>
      rw [hsorted] at hlength
      exact ⟨h, by simp [← hlength]⟩
  | cons front rest =>
      rw [hsorted] at hlength
      rw [← hlength]
      cases sample with
      | nil =>
          obtain ⟨hw, hcount⟩ := foldl_insertValue_weighed hfits rest (weighed_singleton h rfl front)
          refine ⟨⟨hw.quantiles, hw.items, hw.weight, hw.delta_le⟩, hcount.trans ?_⟩
          show count + 1 + rest.length = count + (rest.length + 1)
          omega
      | cons item items =>
          obtain ⟨hw, hcount⟩ := foldl_insertValue_weighed hfits (front :: rest) h
          exact ⟨⟨hw.quantiles, hw.items, hw.weight, hw.delta_le⟩, hcount⟩

theorem compress_weighed (h : Weighed quantiles c) :
    Weighed quantiles c.compress ∧ c.compress.count_ = c.count_ := by
  obtain ⟨quantiles', count, sample, buffer⟩ := c
  unfold compress
  split
  · exact ⟨h, rfl⟩
  · cases sample with
    | nil => exact ⟨h, rfl⟩
    | cons first rest =>
        refine ⟨⟨h.quantiles, ?_, (compressLoop_weight _ _ _ _ _).trans h.weight,
          compressLoop_forall (fun _ _ _ hb => hb) _ _ _ _ _ h.delta_le⟩, rfl⟩
        refine compressLoop_forall (fun a b ha hb => ⟨?_, hb.2⟩) _ _ _ _ _ h.items
        show 1 ≤ a.g + b.g
        omega

theorem flush_weighed (hfits : ErrorFits quantiles) (h : Weighed quantiles c) :
    Weighed quantiles c.flush ∧ c.flush.count_ = c.count_ + c.buffer_.length := by
  obtain ⟨hbatch, hcount⟩ := insertBatch_weighed hfits h
  obtain ⟨hw, hkept⟩ := compress_weighed hbatch
  exact ⟨hw, hkept.trans hcount⟩

/-- A sample is not empty once something was flushed. -/
theorem Weighed.count_eq_zero (h : Weighed quantiles c) (hnil : c.sample_ = []) : c.count_ = 0 := by
  have hweight := h.weight
  rw [hnil, total_nil] at hweight
  omega

theorem push_weighed (h : Weighed quantiles c) (value : Number) :
    Weighed quantiles (c.push value) := ⟨h.quantiles, h.items, h.weight, h.delta_le⟩

theorem step_weighed (hfits : ErrorFits quantiles) (h : Weighed quantiles c) (call : Call) :
    Weighed quantiles (step c call) := by
  cases call with
  | insert value =>
      show Weighed quantiles (c.insert value)
      obtain ⟨-, hinsert⟩ | ⟨-, hinsert⟩ := c.insert_cases value
      · rw [hinsert]
        exact (flush_weighed hfits (push_weighed h value)).1
      · rw [hinsert]
        exact push_weighed h value
  | get q => exact (flush_weighed hfits h).1
  | reset => exact ⟨h.quantiles, by simp [step, reset], rfl, by simp [step, reset]⟩

/-- The values flushed and the values buffered are all there are. -/
theorem step_count (hfits : ErrorFits quantiles) (h : Weighed quantiles c) {log : List Number}
    (hlog : c.count_ + c.buffer_.length = log.length) (call : Call) :
    (step c call).count_ + (step c call).buffer_.length = (logStep log call).length := by
  cases call with
  | insert value =>
      show (c.insert value).count_ + (c.insert value).buffer_.length = (log ++ [value]).length
      have hpushed : (c.push value).count_ + (c.push value).buffer_.length =
          (log ++ [value]).length := by
        simp only [push, List.length_append, List.length_singleton]
        omega
      obtain ⟨-, hinsert⟩ | ⟨-, hinsert⟩ := c.insert_cases value
      · rw [hinsert, flush_buffer, List.length_nil, (flush_weighed hfits (push_weighed h value)).2]
        exact hpushed
      · rw [hinsert]
        exact hpushed
  | get q =>
      show c.flush.count_ + c.flush.buffer_.length = log.length
      rw [flush_buffer, List.length_nil, (flush_weighed hfits h).2]
      exact hlog
  | reset => rfl

theorem run_weighed (hfits : ErrorFits quantiles) (calls : List Call) :
    Weighed quantiles (run quantiles calls) ∧
      (run quantiles calls).count_ + (run quantiles calls).buffer_.length =
        (inserted calls).length :=
  List.foldl_rel
    (r := fun (c : CKMSQuantiles) (log : List Number) =>
      Weighed quantiles c ∧ c.count_ + c.buffer_.length = log.length)
    ⟨new_weighed quantiles, rfl⟩
    fun call _ _ _ h => ⟨step_weighed hfits h.1 call, step_count hfits h.1 h.2 call⟩

end Weighed

end PrometheusCpp.CKMSQuantiles
