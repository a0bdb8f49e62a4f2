/-
# PrometheusCpp.Core.CkmsSelection -- answers from one sample do not cross

The bound of the scan is the rank asked for and half the error allowed there. The error function may
fall with the rank, but by no more than two for each rank where the targets tolerate no more error
than there is room above their quantile, so the bound never falls (`rankBound_mono`) and a scan for
a larger quantile never stops earlier.
-/
import PrometheusCpp.Core.CkmsBudget

namespace PrometheusCpp.CKMSQuantiles

variable {targets : List Target}

/-- With the rank, the allowance of a target falls by at most two for each rank. -/
theorem Target.allowance_le_add {t : Target} (herror : t.error ≤ 1 - t.quantile) {r r' : ℚ}
    (hr : r ≤ r') (n : ℚ) : t.allowance r n ≤ t.allowance r' n + 2 * (r' - r) := by
  have hq := t.quantile_pos
  have hq' : 0 < 1 - t.quantile := sub_pos.mpr t.quantile_lt_one
  have herror' : 0 ≤ 2 * t.error := mul_nonneg (by norm_num) t.error_nonneg
  rw [t.allowance_eq_max, t.allowance_eq_max, mul_max_of_nonneg _ _ herror',
    mul_max_of_nonneg _ _ herror']
  refine max_le ?_ ?_
  · -- What grows with the rank is not smaller at the larger one.
    have hgrows : 2 * t.error * (r / t.quantile) ≤ 2 * t.error * (r' / t.quantile) :=
      mul_le_mul_of_nonneg_left (div_le_div_of_nonneg_right hr hq.le) herror'
    have hmax := le_max_left (2 * t.error * (r' / t.quantile))
      (2 * t.error * ((n - r') / (1 - t.quantile)))
    linarith
  · -- What falls does so at the rate `2 eps / (1 - q)`, which is at most two.
    have hrate : 2 * t.error * ((r' - r) / (1 - t.quantile)) ≤ 2 * (r' - r) := by
      rw [mul_div_assoc', div_le_iff₀ hq']
      nlinarith [mul_le_mul_of_nonneg_right herror (sub_nonneg.mpr hr)]
    have hsplit : 2 * t.error * ((n - r) / (1 - t.quantile)) =
        2 * t.error * ((n - r') / (1 - t.quantile)) +
          2 * t.error * ((r' - r) / (1 - t.quantile)) := by ring
    have hmax := le_max_right (2 * t.error * (r' / t.quantile))
      (2 * t.error * ((n - r') / (1 - t.quantile)))
    linarith

/-- The bound of the scan grows with the quantile asked for. -/
theorem rankBound_mono (herror : ∀ t ∈ targets, t.error ≤ 1 - t.quantile) {p₁ p₂ : ℚ}
    (h : p₁ ≤ p₂) (count size : Nat) :
    rankBound targets p₁ count size ≤ rankBound targets p₂ count size := by
  have hrank : ((⌊p₁ * count⌋ : Int) : ℚ) ≤ (⌊p₂ * count⌋ : Int) := by
    exact_mod_cast Int.floor_le_floor (mul_le_mul_of_nonneg_right h (Nat.cast_nonneg count))
  have hsize : (size : ℚ) ≤ size + 2 * ((⌊p₂ * count⌋ : Int) - (⌊p₁ * count⌋ : Int)) := by linarith
  have hbound := errorBound_le_add hsize fun t (ht : t ∈ targets) =>
    t.allowance_le_add (herror t ht) hrank size
  unfold rankBound
  linarith

/-- A scan with a larger bound does not stop earlier. -/
theorem Sketches.select_mono {c : CKMSQuantiles} {flushed : List Number} (h : Sketches c flushed)
    (hq : c.quantiles_ = targets.map Target.toQuantile) (hne : flushed ≠ [])
    (herror : ∀ t ∈ targets, t.error ≤ 1 - t.quantile) {p₁ p₂ : ℚ} (h₁ : 0 ≤ p₁) (h₂ : p₁ ≤ p₂) :
    ∃ v₁ v₂, c.select (.ofRat p₁) = .num v₁ ∧ c.select (.ofRat p₂) = .num v₂ ∧ v₁ ≤ v₂ := by
  obtain ⟨i, hi, hselect₁, hbefore, -⟩ := exists_selected hq h hne h₁
  obtain ⟨j, hj, hselect₂, -, hafter⟩ := exists_selected hq h hne (h₁.trans h₂)
  have hij : i ≤ j := by
    by_contra hlt
    have hexceeds := hafter (by omega)
    have hwithin := hbefore (j + 1) (by omega) (by omega)
    have hmono := rankBound_mono herror h₂ c.count_ c.sample_.length
    linarith
  exact ⟨_, _, hselect₁, hselect₂, h.value_mono hi hj hij⟩

/-- In every state of a run with a sample, a larger quantile is answered with a value that is not
smaller. -/
theorem run_select_mono (targets : List Target)
    (herror : ∀ t ∈ targets, t.error ≤ 1 - t.quantile) (calls : List Call)
    (hsample : (run (targets.map Target.toQuantile) calls).sample_ ≠ []) (p₁ p₂ : ℚ) (h₁ : 0 ≤ p₁)
    (h₂ : p₁ ≤ p₂) :
    ∃ v₁ v₂, (run (targets.map Target.toQuantile) calls).select (.ofRat p₁) = .num v₁ ∧
      (run (targets.map Target.toQuantile) calls).select (.ofRat p₂) = .num v₂ ∧ v₁ ≤ v₂ := by
  have hinv := run_inv targets calls
  obtain ⟨flushed, hs, -⟩ := hinv.flushed
  have hne : flushed ≠ [] := fun hnil => hsample (hs.sample_eq_nil_iff.mpr hnil)
  exact hs.select_mono hinv.quantiles hne herror h₁ h₂

/-- The median and the maximum of three values. -/
theorem run_select_mono_of_three :
    ∃ v₁ v₂, (run ([fourFifths].map Target.toQuantile) (ascending 3 ++ [.get .nan])).select
        (.ofRat (1 / 2)) = .num v₁ ∧
      (run ([fourFifths].map Target.toQuantile) (ascending 3 ++ [.get .nan])).select
        (.ofRat 1) = .num v₂ ∧ v₁ ≤ v₂ := by
  have herror : ∀ t ∈ [fourFifths], t.error ≤ 1 - t.quantile := by
    simp only [List.mem_singleton, forall_eq, fourFifths]
    norm_num
  exact run_select_mono [fourFifths] herror (ascending 3 ++ [.get .nan]) (by decide +kernel) (1 / 2) 1
    (by norm_num) (by norm_num)

end PrometheusCpp.CKMSQuantiles
