/-
# PrometheusCpp.Core.CkmsBudget -- the samples are as fine as the targets ask at their true ranks

`insertBatch` and `compress` evaluate the error function at positions in the sample. The position of
a sample is at most its rank, and there are at most as many samples behind it as observations; the
error function grows in both. So a bound that is kept at positions is kept at ranks, and stays kept
when later values move the ranks (`passes_withinBudget`).
-/
import PrometheusCpp.Core.CkmsAccuracy
import PrometheusCpp.Core.CkmsPasses
import PrometheusCpp.Lib.WeightedList

namespace PrometheusCpp.CKMSQuantiles

open WeightedList

/-! ## The error function grows with the rank and with what is behind it -/

theorem Target.allowance_eq_max (t : Target) (r n : ℚ) :
    t.allowance r n = 2 * t.error * max (r / t.quantile) ((n - r) / (1 - t.quantile)) := by
  have hq := t.quantile_pos
  have hq' : 0 < 1 - t.quantile := sub_pos.mpr t.quantile_lt_one
  -- The branches meet where the rank is the quantile of the size.
  have hbranch : r / t.quantile ≤ (n - r) / (1 - t.quantile) ↔ r ≤ t.quantile * n := by
    rw [div_le_div_iff₀ hq hq']
    constructor <;> intro h <;> nlinarith
  unfold allowance
  split_ifs with hle
  · rw [max_eq_right (hbranch.mpr hle)]
    ring
  · rw [max_eq_left (le_of_not_ge fun h => hle (hbranch.mp h))]
    ring

theorem Target.allowance_mono (t : Target) {r n r' n' : ℚ} (hr : r ≤ r') (hn : n - r ≤ n' - r') :
    t.allowance r n ≤ t.allowance r' n' := by
  have hq := t.quantile_pos
  have hq' : 0 < 1 - t.quantile := sub_pos.mpr t.quantile_lt_one
  rw [t.allowance_eq_max, t.allowance_eq_max]
  have herror : 0 ≤ 2 * t.error := mul_nonneg (by norm_num) t.error_nonneg
  apply mul_le_mul_of_nonneg_left _ herror
  exact max_le_max (div_le_div_of_nonneg_right hr hq.le) (div_le_div_of_nonneg_right hn hq'.le)

theorem errorBound_mono (targets : List Target) {r n r' n' : ℚ} (hr : r ≤ r')
    (hn : n - r ≤ n' - r') : errorBound targets r n ≤ errorBound targets r' n' := by
  have hsize : n ≤ n' + 0 := by linarith
  have h : errorBound targets r n ≤ errorBound targets r' n' + 0 :=
    errorBound_le_add hsize fun t _ => by
      rw [add_zero]
      exact t.allowance_mono hr hn
  rwa [add_zero] at h

/-! ## The budget of a sample -/

/-- The sample, between the given weights, is within the error allowed at its rank, and two more. -/
def Fits (targets : List Target) (before : Int) (item : Item) (after : Int) : Prop :=
  ((item.g + item.delta : Int) : ℚ) ≤
    errorBound targets (1 + before) (before + item.g + after) + 2

theorem Fits.mono {targets : List Target} {before after before' after' : Int} {item : Item}
    (h : Fits targets before item after) (hbefore : before ≤ before') (hafter : after ≤ after') :
    Fits targets before' item after' := by
  have hr : (before : ℚ) ≤ before' := Int.cast_le.mpr hbefore
  have hn : (after : ℚ) ≤ after' := Int.cast_le.mpr hafter
  have hmono : errorBound targets (1 + before) (before + item.g + after) ≤
      errorBound targets (1 + before') (before' + item.g + after') :=
    errorBound_mono targets (by linarith) (by linarith)
  exact le_trans h (add_le_add_left hmono 2)

/-- An error allowed at a position is allowed at the rank. -/
theorem fits_of_position {targets : List Target} {before after : Int} {item : Item} {index size : Nat}
    {slack : ℚ} (hslack : slack ≤ 2)
    (h : ((item.g + item.delta : Int) : ℚ) ≤ errorBound targets index size + slack)
    (hindex : (index : Int) ≤ 1 + before) (hsize : (size : Int) - index ≤ item.g - 1 + after) :
    Fits targets before item after := by
  have hr : (index : ℚ) ≤ 1 + before := by exact_mod_cast hindex
  have hn : (size : ℚ) - index ≤ item.g - 1 + after := by exact_mod_cast hsize
  have hmono : errorBound targets index size ≤
      errorBound targets (1 + before) (before + item.g + after) :=
    errorBound_mono targets hr (by linarith)
  unfold Fits
  linarith

/-- A sample that stands for one value and has no delta is always within it. -/
theorem fits_of_exact {targets : List Target} {before after : Int} {item : Item} (hg : item.g = 1)
    (hdelta : item.delta = 0) (hbefore : 0 ≤ before) (hafter : 0 ≤ after) :
    Fits targets before item after := by
  have hb : (0 : ℚ) ≤ before := Int.cast_nonneg hbefore
  have ha : (0 : ℚ) ≤ after := Int.cast_nonneg hafter
  have hnonneg : 0 ≤ errorBound targets (1 + before) (before + item.g + after) := by
    apply errorBound_nonneg
    · linarith
    · rw [hg, Int.cast_one]
      linarith
  unfold Fits
  rw [hg, hdelta] at *
  push_cast at *
  linarith

theorem length_le_total {xs : List Item} (h : ∀ item ∈ xs, 1 ≤ item.g) :
    (xs.length : Int) ≤ total Item.g xs := by
  induction xs with
  | nil => simp
  | cons x xs ih =>
      obtain ⟨hx, hxs⟩ := List.forall_mem_cons.mp h
      have := ih hxs
      rw [total_cons, List.length_cons]
      push_cast
      omega

/-! ## Rounds and merges keep the budget -/

section Kept

variable {targets : List Target}

theorem insertDelta_fits {c : CKMSQuantiles} {flushed : List Number}
    (hq : c.quantiles_ = targets.map Target.toQuantile) (h : Sketches c flushed) (value : Number) :
    Fits targets (total Item.g (c.sample_.take (c.insertIndex value)))
      ⟨value, 1, c.insertDelta value⟩ (total Item.g (c.sample_.drop (c.insertIndex value))) := by
  have hindex : c.insertIndex value ≤ c.sample_.length := (lowerBound_sample h value).le_length
  have hbefore := length_le_total fun item hitem =>
    h.g_pos item (List.mem_of_mem_take (i := c.insertIndex value) hitem)
  have hafter := length_le_total fun item hitem =>
    h.g_pos item (List.mem_of_mem_drop (i := c.insertIndex value) hitem)
  rw [List.length_take, min_eq_left hindex] at hbefore
  rw [List.length_drop] at hafter
  by_cases hinside : 0 < c.insertIndex value ∧ c.insertIndex value < c.sample_.length
  · -- Inside the sample the delta is the error allowed at the position, rounded down, and one.
    have hdelta : c.insertDelta value =
        ⌊errorBound targets ((c.insertIndex value + 1 : Nat) : Int) c.sample_.length⌋ + 1 := by
      have hcast : ((c.insertIndex value : Int) + 1) = ((c.insertIndex value + 1 : Nat) : Int) := by
        push_cast
        rfl
      rw [insertDelta, if_pos hinside, hq, hcast, allowableError_eq, Double.floor_ofRat,
        Double.toInt_ofRat_intCast]
    have hfloor := Int.floor_le
      (errorBound targets ((c.insertIndex value + 1 : Nat) : Int) c.sample_.length)
    have hopen : ((1 + c.insertDelta value : Int) : ℚ) ≤
        errorBound targets ((c.insertIndex value + 1 : Nat) : ℚ) (c.sample_.length : ℚ) + 2 := by
      rw [hdelta]
      push_cast at hfloor ⊢
      linarith
    refine fits_of_position le_rfl hopen ?_ ?_
    · push_cast
      omega
    · push_cast
      show (c.sample_.length : Int) - (c.insertIndex value + 1) ≤ 1 - 1 + _
      omega
  · exact fits_of_exact rfl (if_neg hinside) (by omega) (by omega)

/-- The index and the size of the loop are those of the samples kept and of the samples left, so a
merge that they allow is allowed at the true ranks. -/
theorem loopMerges_fits (rest : List Item) :
    ∀ (index size : Nat) (last : Item) {before : Int}, size = index + rest.length →
      (index : Int) ≤ 1 + before → (∀ item ∈ last :: rest, 1 ≤ item.g) →
      LoopMerges (Fits targets) (targets.map Target.toQuantile) index size before last rest := by
  induction rest with
  | nil => intro index size last before _ _ _; trivial
  | cons current rest ih =>
      intro index size last before hsize hindex hpos
      simp only [List.forall_mem_cons] at hpos
      have hrest := length_le_total hpos.2.2
      rw [List.length_cons] at hsize
      rw [LoopMerges]
      split
      · rename_i hmerge
        -- The merged sample has the rank of the earlier one and the value of the later one.
        rw [← Int.cast_natCast index] at *
        simp only [allowableError_eq, Double.intCast_eq, Double.le_ofRat, decide_eq_true_eq] at hmerge
        have hmerged : Fits targets before { current with g := last.g + current.g }
            (total Item.g rest) := by
          have hopen : ((last.g + current.g + current.delta : Int) : ℚ) ≤
              errorBound targets (index : ℚ) (size : ℚ) + 0 := by
            rw [add_zero]
            exact_mod_cast hmerge
          refine fits_of_position (by norm_num) hopen ?_ ?_
          · exact_mod_cast hindex
          · show (size : Int) - index ≤ last.g + current.g - 1 + _
            push_cast [hsize]
            omega
        refine ⟨hmerged, ih _ _ _ (by omega) (by exact_mod_cast hindex) ?_⟩
        exact List.forall_mem_cons.mpr ⟨by show 1 ≤ last.g + current.g; omega, hpos.2.2⟩
      · exact ih _ _ _ (by omega) (by push_cast; omega) (List.forall_mem_cons.mpr hpos.2)

theorem merges_fits {c : CKMSQuantiles} {flushed : List Number}
    (hq : c.quantiles_ = targets.map Target.toQuantile) (h : Sketches c flushed) :
    Merges (Fits targets) c := by
  unfold Merges
  split
  · trivial
  · rename_i first rest hsample
    rw [hq]
    exact loopMerges_fits rest 1 (rest.length + 1) first (by omega) (by simp)
      (hsample ▸ h.g_pos)

theorem kept_fits (targets : List Target) : Kept targets (fun _ _ => True) (fun _ => True)
    fun sample _ => Everywhere Item.g (Fits targets) 0 sample 0 where
  empty := trivial
  first _ := ⟨fits_of_exact rfl rfl le_rfl le_rfl, trivial⟩
  perm _ h := h
  round hq hs _ h := insertValue_everywhere (fun hbefore hafter hitem => hitem.mono hbefore hafter)
    (insertDelta_fits hq hs _) h
  compress hq hs _ h := compress_everywhere (merges_fits hq hs) h

end Kept

/-- What is in front of a sample, the sample and what is behind it are all observations. -/
theorem count_eq_total {c : CKMSQuantiles} {log : List Number} (h : Sketches c log) {i : Nat}
    (hi : i < c.sample_.length) :
    (c.count_ : Int) = total Item.g (c.sample_.take i) + c.sample_[i].g +
      total Item.g (c.sample_.drop (i + 1)) := by
  have hweight : total Item.g c.sample_ = log.length := h.weight
  rw [h.count, ← hweight, add_assoc, ← total_cons, ← total_append, List.cons_getElem_drop_succ,
    List.take_append_drop]

/-- Behind every `insertBatch` and every `compress` of a run, what a sample leaves open of its rank
is at most what the error function allows at that rank among all observations, and two more. There
the error function is the smallest allowance of the targets. -/
theorem passes_withinBudget (targets : List Target) (calls : List Call) (call : Call) :
    ∀ state ∈ (run (targets.map Target.toQuantile) calls).passes call,
      ∀ i, (h : i < state.sample_.length) →
        allowableError state.quantiles_ (1 + ((state.sample_.take i).map Item.g).sum)
            state.count_ =
          .ofRat (errorBound targets ((1 + ((state.sample_.take i).map Item.g).sum : Int) : ℚ)
            state.count_) ∧
        ((state.sample_[i].g + state.sample_[i].delta : Int) : ℚ) ≤
          errorBound targets ((1 + ((state.sample_.take i).map Item.g).sum : Int) : ℚ)
            state.count_ + 2 := by
  intro state hstate i hi
  obtain ⟨hq, hs, hfits⟩ := (kept_fits targets).of_mem_passes_of_true hstate
  refine ⟨by rw [hq, allowableError_eq], ?_⟩
  have hitem := everywhere_iff_getElem.mp hfits i hi
  rw [zero_add, add_zero] at hitem
  unfold Fits at hitem
  rw [← Int.cast_add, ← Int.cast_add, ← count_eq_total hs hi] at hitem
  exact_mod_cast hitem

/-- The third of three values, behind the `insertBatch` of the first query. -/
theorem passes_withinBudget_of_three :
    ∃ state ∈ (run ([fourFifths].map Target.toQuantile) (ascending 3)).passes (.get .nan),
      ∃ h : 2 < state.sample_.length, state.sample_[2].value = .fin 3 ∧
        ((state.sample_[2].g + state.sample_[2].delta : Int) : ℚ) ≤
          errorBound [fourFifths] ((1 + ((state.sample_.take 2).map Item.g).sum : Int) : ℚ)
            state.count_ + 2 := by
  have hmem : (run ([fourFifths].map Target.toQuantile) (ascending 3)).insertBatch ∈
      (run ([fourFifths].map Target.toQuantile) (ascending 3)).passes (.get .nan) :=
    List.mem_cons_self
  have hsample : (run ([fourFifths].map Target.toQuantile) (ascending 3)).insertBatch.sample_ =
      [⟨.fin 1, 1, 0⟩, ⟨.fin 2, 1, 0⟩, ⟨.fin 3, 1, 0⟩] := by decide +kernel
  have hlength : 2 < (run ([fourFifths].map Target.toQuantile)
      (ascending 3)).insertBatch.sample_.length := by rw [hsample]; decide
  refine ⟨_, hmem, hlength, ?_,
    (passes_withinBudget [fourFifths] (ascending 3) (.get .nan) _ hmem 2 hlength).2⟩
  simp only [hsample]
  rfl

end PrometheusCpp.CKMSQuantiles
