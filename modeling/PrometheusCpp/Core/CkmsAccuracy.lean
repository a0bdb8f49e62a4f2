/-
# PrometheusCpp.Core.CkmsAccuracy -- which queries the sketch answers within its tolerance

A summary is documented to answer a target `(q, eps)` with a value whose rank is within `eps n` of
`q n`. The scan of `get` stops before the first sample whose recorded upper rank exceeds
`desired + allowableError(desired, sample_.size()) / 2`, and this module says exactly when that
stop is inside the documented window (`get_accurate_iff`): when no sample reaches from below the
window to beyond the bound, and none above the window is recorded within the bound. `compress`
evaluates the error function at sample indices and `get` at a true rank but a sample size, and
neither keeps samples that fine.
-/
import PrometheusCpp.Core.CkmsInvariant
import Mathlib.Tactic.NormNum

namespace PrometheusCpp.CKMSQuantiles

/-! ## Ranks -/

/-- The number of observations up to `v`: the largest rank `v` has among them. -/
def atMost (log : List Number) (v : Number) : Nat := log.countP (· ≤ v)

/-- The number of observations smaller than `v`: one less than its smallest rank. -/
def below (log : List Number) (v : Number) : Nat := log.countP (· < v)

theorem atMost_mono (log : List Number) {v w : Number} (h : v ≤ w) :
    atMost log v ≤ atMost log w :=
  List.countP_mono_left fun x _ hx => by simpa using (of_decide_eq_true hx).trans h

theorem below_mono (log : List Number) {v w : Number} (h : v ≤ w) : below log v ≤ below log w :=
  List.countP_mono_left fun x _ hx => by simpa using (of_decide_eq_true hx).trans_le h

/-- An observation has a rank. -/
theorem below_lt_atMost {log : List Number} {v : Number} (h : v ∈ log) :
    below log v < atMost log v := by
  unfold below atMost
  induction log with
  | nil => exact absurd h List.not_mem_nil
  | cons x log ih =>
      have hle : log.countP (· < v) ≤ log.countP (· ≤ v) :=
        List.countP_mono_left fun y _ hy => by simpa using (of_decide_eq_true hy).le
      simp only [List.countP_cons, decide_eq_true_eq]
      rcases List.mem_cons.mp h with rfl | hmem
      · simp only [lt_irrefl, if_false, le_refl, if_true]
        omega
      · have hlt := ih hmem
        by_cases hx : x < v
        · simp only [hx, hx.le, if_true]
          omega
        · rw [if_neg hx]
          split <;> omega

/-! ## The documented window -/

section Window

variable (log : List Number) (v : Number) (t : Target)

/-- Some rank of `v` among the observations is in `[(q - eps) n - 1, (q + eps) n + 1]`. -/
def RankMeets : Prop :=
  ∃ rank : Nat, (below log v + 1 ≤ rank ∧ rank ≤ atMost log v) ∧
    (t.quantile - t.error) * log.length - 1 ≤ rank ∧
    (rank : ℚ) ≤ (t.quantile + t.error) * log.length + 1

/-- Fewer than `(q - eps) n - 1` observations are at or below `v`. -/
def BelowWindow : Prop := (atMost log v : ℚ) < (t.quantile - t.error) * log.length - 1

/-- More than `(q + eps) n` observations are smaller than `v`. -/
def AboveWindow : Prop := (t.quantile + t.error) * log.length < below log v

variable {log v t}

theorem rankMeets_iff (h : v ∈ log) :
    RankMeets log v t ↔ ¬ BelowWindow log v t ∧ ¬ AboveWindow log v t := by
  unfold BelowWindow AboveWindow
  rw [not_lt, not_lt]
  constructor
  · rintro ⟨rank, ⟨hlow, hhigh⟩, hfrom, hto⟩
    have hlow' : ((below log v + 1 : Nat) : ℚ) ≤ rank := by exact_mod_cast hlow
    have hhigh' : (rank : ℚ) ≤ atMost log v := by exact_mod_cast hhigh
    push_cast at hlow'
    exact ⟨by linarith, by linarith⟩
  · rintro ⟨hfrom, hto⟩
    have hrange : below log v + 1 ≤ atMost log v := below_lt_atMost h
    have hn : 0 ≤ t.error * log.length := mul_nonneg t.error_nonneg (by positivity)
    -- The smallest rank of `v` that is not below the interval.
    refine ⟨max (below log v + 1) ⌈(t.quantile - t.error) * log.length - 1⌉₊,
      ⟨le_max_left _ _, max_le hrange (Nat.ceil_le.mpr hfrom)⟩, ?_, ?_⟩
    · exact (Nat.le_ceil _).trans (by exact_mod_cast le_max_right _ _)
    · rw [Nat.cast_max]
      refine max_le (by push_cast; linarith) ?_
      rcases le_or_gt ((t.quantile - t.error) * (log.length : ℚ) - 1) 0 with hneg | hpos
      · rw [Nat.ceil_eq_zero.mpr hneg]
        have hq : 0 ≤ t.quantile * log.length := mul_nonneg t.quantile_pos.le (by positivity)
        push_cast
        linarith
      · have := Nat.ceil_lt_add_one hpos.le
        linarith

end Window

/-- The answer is one of the observations, with a rank in the window. -/
def Accurate (log : List Number) (answer : Double) (t : Target) : Prop :=
  ∃ v, answer = .num v ∧ v ∈ log ∧ RankMeets log v t

/-! ## The scan -/

/-- The recorded upper rank of the `i`-th sample: the weights up to it, and its delta. -/
def upperRank : List Item → Nat → Int
  | [], _ => 0
  | item :: _, 0 => item.g + item.delta
  | item :: rest, i + 1 => item.g + upperRank rest i

/-- The bound of the scan, `desired + allowableError(desired, sample_.size()) / 2`. -/
def rankBound (targets : List Target) (q : ℚ) (count size : Nat) : ℚ :=
  ⌊q * count⌋ + errorBound targets ⌊q * count⌋ size / 2

theorem scanBound_eq {c : CKMSQuantiles} {targets : List Target} {q : ℚ}
    (hc : c.quantiles_ = targets.map Target.toQuantile) (hq : 0 ≤ q) :
    c.scanBound (.ofRat q) = .ofRat (rankBound targets q c.count_ c.sample_.length) := by
  have hnonneg : 0 ≤ q * c.count_ := mul_nonneg hq (by positivity)
  have htwo : (2 : ℚ) ≠ 0 := by norm_num
  simp only [scanBound, desiredRank, hc, allowableError_eq, Double.natCast_eq, Double.ofRat_mul,
    Double.toInt_ofRat_of_nonneg hnonneg, Double.intCast_eq, Double.ofNat_eq, Nat.cast_ofNat,
    Double.ofRat_div _ htwo, Double.ofRat_add, rankBound]

/-- The scan stops at a sample behind which the bound is exceeded, and nowhere up to which it is. -/
theorem scan_spec (bound : ℚ) : ∀ (rest : List Item) (rankMin : Int) (prev : Item),
    ∃ (p : Nat) (hp : p < (prev :: rest).length),
      scan (.ofRat bound) rankMin prev rest = (prev :: rest)[p] ∧
      (∀ j, 1 ≤ j → j ≤ p → ((rankMin + upperRank (prev :: rest) j : Int) : ℚ) ≤ bound) ∧
      (p + 1 < (prev :: rest).length →
        bound < ((rankMin + upperRank (prev :: rest) (p + 1) : Int) : ℚ)) := by
  intro rest
  induction rest with
  | nil =>
      intro rankMin prev
      exact ⟨0, by simp, rfl, fun j hj hj' => by omega, fun h => by simp at h⟩
  | cons cur rest ih =>
      intro rankMin prev
      -- The test of the source, as an upper rank.
      have htest : ((rankMin + prev.g + cur.g + cur.delta : Int) : ℚ) =
          ((rankMin + upperRank (prev :: cur :: rest) 1 : Int) : ℚ) := by
        congr 1
        simp only [upperRank]
        omega
      simp only [scan, Double.intCast_eq, Double.lt_ofRat, htest, decide_eq_true_eq]
      by_cases hstop : bound < ((rankMin + upperRank (prev :: cur :: rest) 1 : Int) : ℚ)
      · rw [if_pos hstop]
        exact ⟨0, by simp, rfl, fun j hj hj' => by omega, fun _ => hstop⟩
      · rw [if_neg hstop]
        obtain ⟨p, hp, hsel, hbefore, hafter⟩ := ih (rankMin + prev.g) cur
        have hshift : ∀ j, ((rankMin + upperRank (prev :: cur :: rest) (j + 1) : Int) : ℚ) =
            ((rankMin + prev.g + upperRank (cur :: rest) j : Int) : ℚ) := by
          intro j
          congr 1
          rw [upperRank]
          omega
        refine ⟨p + 1, by simpa using hp, by simpa using hsel, ?_, ?_⟩
        · intro j hj hjp
          obtain ⟨i, rfl⟩ : ∃ i, j = i + 1 := ⟨j - 1, by omega⟩
          rcases Nat.eq_zero_or_pos i with rfl | hi
          · exact not_lt.mp hstop
          · rw [hshift]
            exact hbefore i hi (by omega)
        · intro h
          rw [hshift]
          exact hafter (by simpa using h)

/-! ## When a query is accurate -/

/-- The samples separate the observations below the window from those above it, as far as the scan
can see: behind a sample below the window the recorded upper rank is still within the bound, and up
to a sample above the window it has exceeded the bound. The first sample is never tested. -/
structure Resolves (sample : List Item) (log : List Number) (bound : ℚ) (t : Target) : Prop where
  no_coarse : ∀ i, (h : i + 1 < sample.length) → BelowWindow log sample[i].value t →
    (upperRank sample (i + 1) : ℚ) ≤ bound
  no_understated : ∀ i, (h : i < sample.length) → AboveWindow log sample[i].value t →
    ∃ j, 1 ≤ j ∧ j ≤ i ∧ bound < (upperRank sample j : ℚ)

theorem belowWindow_mono {log : List Number} {v w : Number} {t : Target} (h : v ≤ w)
    (hw : BelowWindow log w t) : BelowWindow log v t :=
  lt_of_le_of_lt (by exact_mod_cast atMost_mono log h) hw

theorem aboveWindow_mono {log : List Number} {v w : Number} {t : Target} (h : v ≤ w)
    (hv : AboveWindow log v t) : AboveWindow log w t :=
  lt_of_lt_of_le hv (by exact_mod_cast below_mono log h)

/-- The last sample is the maximum, so it is not below any window. -/
theorem not_belowWindow_last {c : CKMSQuantiles} {log : List Number} {t : Target}
    (h : Sketches c log) {p : Nat} (hp : p < c.sample_.length) (hlast : c.sample_.length ≤ p + 1) :
    ¬ BelowWindow log c.sample_[p].value t := by
  have hget : c.sample_.getLast? = some c.sample_[p] := by
    rw [List.getLast?_eq_getElem?, List.getElem?_eq_getElem (by omega)]
    congr 2
    omega
  have hall : atMost log c.sample_[p].value = log.length :=
    List.countP_eq_length.mpr fun x hx => by simpa using (h.last _ hget).2 x hx
  have he := mul_nonneg t.error_nonneg (by positivity : (0 : ℚ) ≤ log.length)
  have hq : t.quantile * log.length ≤ log.length :=
    mul_le_of_le_one_left (by positivity) t.quantile_lt_one.le
  unfold BelowWindow
  rw [hall]
  intro hlt
  linarith

/-- A query answers with the value of a sample behind which the bound is exceeded, and up to which
it is not. -/
theorem exists_selected {targets : List Target} {c : CKMSQuantiles} {log : List Number}
    (hc : c.quantiles_ = targets.map Target.toQuantile) (h : Sketches c log) (hne : log ≠ [])
    {q : ℚ} (hq : 0 ≤ q) :
    ∃ (p : Nat) (hp : p < c.sample_.length),
      c.select (.ofRat q) = .num c.sample_[p].value ∧
      (∀ j, 1 ≤ j → j ≤ p →
        (upperRank c.sample_ j : ℚ) ≤ rankBound targets q c.count_ c.sample_.length) ∧
      (p + 1 < c.sample_.length →
        rankBound targets q c.count_ c.sample_.length < (upperRank c.sample_ (p + 1) : ℚ)) := by
  have hbound := scanBound_eq hc hq
  generalize rankBound targets q c.count_ c.sample_.length = bound at hbound ⊢
  obtain ⟨first, rest, hsample⟩ : ∃ first rest, c.sample_ = first :: rest :=
    List.exists_cons_of_ne_nil fun hnil => hne (h.sample_eq_nil_iff.mp hnil)
  obtain ⟨p, hp, hsel, hbefore, hafter⟩ := scan_spec bound rest 0 first
  simp only [zero_add, ← hsample] at hp hsel hbefore hafter
  refine ⟨p, hp, ?_, hbefore, hafter⟩
  rw [select, hbound]
  split
  · rename_i hnil
    rw [hsample] at hnil
    exact absurd hnil (List.cons_ne_nil _ _)
  · rename_i first' rest' heq
    obtain ⟨rfl, rfl⟩ := List.cons.inj (heq.symm.trans hsample)
    rw [hsel]

theorem Sketches.value_mono {c : CKMSQuantiles} {log : List Number} (h : Sketches c log) {i j : Nat}
    (hi : i < c.sample_.length) (hj : j < c.sample_.length) (hij : i ≤ j) :
    c.sample_[i].value ≤ c.sample_[j].value := by
  rcases Nat.lt_or_eq_of_le hij with hlt | rfl
  · exact List.pairwise_iff_getElem.mp h.sorted i j hi hj hlt
  · exact le_rfl

/-- An observation is an accurate answer if it is neither below nor above the window. -/
theorem accurate_num_iff {log : List Number} {v : Number} {t : Target} (hmem : v ∈ log) :
    Accurate log (.num v) t ↔ ¬ BelowWindow log v t ∧ ¬ AboveWindow log v t := by
  rw [← rankMeets_iff hmem]
  constructor
  · rintro ⟨w, hw, -, hmeets⟩
    obtain rfl : v = w := by simpa using hw
    exact hmeets
  · intro hmeets
    exact ⟨v, rfl, hmem, hmeets⟩

/-- A sketch answers a target accurately if and only if its samples resolve the window. -/
theorem select_accurate_iff {targets : List Target} {c : CKMSQuantiles} {log : List Number}
    (hc : c.quantiles_ = targets.map Target.toQuantile) (h : Sketches c log) (hne : log ≠ [])
    (t : Target) :
    Accurate log (c.select (.ofRat t.quantile)) t ↔
      Resolves c.sample_ log (rankBound targets t.quantile c.count_ c.sample_.length) t := by
  obtain ⟨p, hp, hselect, hbefore, hafter⟩ := exists_selected hc h hne t.quantile_pos.le
  have hmem : c.sample_[p].value ∈ log := h.mem _ (List.getElem_mem hp)
  rw [hselect, accurate_num_iff hmem]
  constructor
  · rintro ⟨hnotBelow, hnotAbove⟩
    refine ⟨?_, ?_⟩
    · -- A sample below the window comes before the one selected.
      intro i hi hlow
      have hip : i < p := by
        by_contra hge
        exact hnotBelow (belowWindow_mono (h.value_mono hp (by omega) (by omega)) hlow)
      exact hbefore (i + 1) (by omega) (by omega)
    · -- A sample above the window comes behind it.
      intro i hi hhigh
      have hpi : p < i := by
        by_contra hge
        exact hnotAbove (aboveWindow_mono (h.value_mono hi hp (by omega)) hhigh)
      exact ⟨p + 1, by omega, by omega, hafter (by omega)⟩
  · rintro ⟨hcoarse, hunderstated⟩
    refine ⟨?_, ?_⟩
    · intro hlow
      rcases Nat.lt_or_ge (p + 1) c.sample_.length with hlt | hge
      · exact absurd (hcoarse p hlt hlow) (not_le.mpr (hafter hlt))
      · exact not_belowWindow_last h hp hge hlow
    · intro hhigh
      obtain ⟨j, hj, hjp, hexceeds⟩ := hunderstated p hp hhigh
      exact absurd (hbefore j hj hjp) (not_le.mpr hexceeds)

/-- In every run, a query of a target is accurate if and only if the samples it flushes resolve the
target's window. -/
theorem get_accurate_iff (targets : List Target) (calls : List Call) (t : Target)
    (hne : inserted calls ≠ []) :
    Accurate (inserted calls)
        ((run (targets.map Target.toQuantile) calls).get (.ofRat t.quantile)).1 t ↔
      Resolves (run (targets.map Target.toQuantile) calls).flush.sample_ (inserted calls)
        (rankBound targets t.quantile (inserted calls).length
          (run (targets.map Target.toQuantile) calls).flush.sample_.length) t := by
  have hinv := run_inv targets calls
  have hiff := select_accurate_iff hinv.flush_quantiles hinv.flush_sketches hne t
  rw [hinv.flush_sketches.count] at hiff
  exact hiff

/-! ## Some targets, and a stream -/

/-- The quantile 0.8 with a tolerance of 0.1. -/
def fourFifths : Target where
  quantile := 4 / 5
  error := 1 / 10
  quantile_pos := by norm_num
  quantile_lt_one := by norm_num
  error_nonneg := by norm_num

/-- The quantile 0.5 with a tolerance of 0.05. -/
def medianTarget : Target where
  quantile := 1 / 2
  error := 1 / 20
  quantile_pos := by norm_num
  quantile_lt_one := by norm_num
  error_nonneg := by norm_num

/-- The quantile 0.9 with a tolerance of 0.02. -/
def ninetiethTarget : Target where
  quantile := 9 / 10
  error := 1 / 50
  quantile_pos := by norm_num
  quantile_lt_one := by norm_num
  error_nonneg := by norm_num

/-- Insertions of `1, ..., n`. -/
def ascending (n : Nat) : List Call := (List.range n).map fun i => .insert (.fin (i + 1))

end PrometheusCpp.CKMSQuantiles
