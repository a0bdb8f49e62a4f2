/-
# PrometheusCpp.Core.CkmsRanks -- how the samples bracket the ranks of their values

The weights up to a sample are meant to be ranks of its value, up to its delta. They never overstate
the rank (`passes_reached`). They can understate it by more than the delta: `insertBatch` gives a new
sample a delta from the error function at its index, and none at the front, whatever the sample
behind it stands for. Where the delta covers what that sample leaves open, the brackets are kept
(`passes_bracketRanks`).
-/
import PrometheusCpp.Core.CkmsAccuracy
import PrometheusCpp.Core.CkmsPasses
import PrometheusCpp.Lib.WeightedList

namespace PrometheusCpp.CKMSQuantiles

open BinarySearch WeightedList

/-! ## Statements about a sample and the weights up to it -/

/-- Every sample stands as `P` wants it to the weights up to it, itself included. -/
def Ranked (P : Int → Item → Prop) (before : Int) (sample : List Item) : Prop :=
  Everywhere Item.g (fun before item _ => P (before + item.g) item) before sample 0

theorem ranked_append {P : Int → Item → Prop} {before : Int} {xs ys : List Item} :
    Ranked P before (xs ++ ys) ↔ Ranked P before xs ∧ Ranked P (before + total Item.g xs) ys := by
  unfold Ranked
  rw [everywhere_append]
  refine and_congr_left fun _ => ⟨fun h => ?_, fun h => ?_⟩ <;>
    exact h.shift fun _ _ _ _ hitem => hitem

theorem Ranked.imp {P Q : Int → Item → Prop} {before : Int} {sample : List Item}
    (h : Ranked P before sample) (hstep : ∀ item ∈ sample, ∀ upto, P upto item → Q upto item) :
    Ranked Q before sample :=
  Everywhere.imp h fun item hitem before _ => hstep item hitem (before + item.g)

/-- One more in front of the samples is one more up to each of them. -/
theorem Ranked.succ {P Q : Int → Item → Prop} {before : Int} {sample : List Item}
    (h : Ranked P before sample)
    (hstep : ∀ item ∈ sample, ∀ upto, P upto item → Q (upto + 1) item) :
    Ranked Q (before + 1) sample := by
  refine Everywhere.shift h fun item hitem b a hP => ?_
  have hQ := hstep item hitem _ hP
  rwa [show before + b + item.g + 1 = before + 1 + b + item.g from by omega] at hQ

theorem ranked_iff_getElem {P : Int → Item → Prop} {sample : List Item} :
    Ranked P 0 sample ↔ ∀ i, (h : i < sample.length) →
      P ((sample.take (i + 1)).map Item.g).sum sample[i] := by
  unfold Ranked
  rw [everywhere_iff_getElem]
  refine forall₂_congr fun i hi => ?_
  rw [List.take_succ_eq_append_getElem hi, List.map_append, List.sum_append, zero_add]
  simp [total]

/-- A merged sample has the value and the delta of the later one and stands for both, so the weights
up to it are those up to the later one. -/
theorem compressLoop_ranked {P : Int → Item → Prop}
    (hmerge : ∀ upto item g, P upto item → P upto { item with g := g }) (quantiles : List Quantile)
    (rest : List Item) : ∀ (index size : Nat) (last : Item) {before : Int},
      Ranked P before (last :: rest) →
      Ranked P before (compressLoop quantiles index size last rest) := by
  induction rest with
  | nil => intro index size last before h; exact h
  | cons current rest ih =>
      intro index size last before h
      rw [compressLoop]
      split
      · apply ih
        obtain ⟨-, hcurrent, hrest⟩ := h
        rw [add_assoc] at hcurrent hrest
        exact ⟨hmerge _ _ _ hcurrent, hrest⟩
      · exact ⟨h.1, ih _ _ _ h.2⟩

theorem compress_ranked {P : Int → Item → Prop}
    (hmerge : ∀ upto item g, P upto item → P upto { item with g := g }) {c : CKMSQuantiles}
    (h : Ranked P 0 c.sample_) : Ranked P 0 c.compress.sample_ := by
  obtain ⟨quantiles, count, sample, buffer⟩ := c
  unfold CKMSQuantiles.compress
  split
  · exact h
  · cases sample with
    | nil => exact h
    | cons first rest => exact compressLoop_ranked hmerge _ _ _ _ _ h

/-! ## The two halves of a bracket -/

/-- At least so many of the values flushed are at most the sample's. -/
def Reached (flushed : List Number) (upto : Int) (item : Item) : Prop :=
  upto ≤ atMost flushed item.value

/-- Fewer than so many of the values flushed, and the sample's delta more, are smaller than the
sample's. -/
def Bounded (flushed : List Number) (upto : Int) (item : Item) : Prop :=
  (below flushed item.value : Int) + 1 ≤ upto + item.delta

@[simp] theorem atMost_cons (value : Number) (log : List Number) (v : Number) :
    atMost (value :: log) v = atMost log v + if value ≤ v then 1 else 0 := by
  simp [atMost, List.countP_cons]

@[simp] theorem below_cons (value : Number) (log : List Number) (v : Number) :
    below (value :: log) v = below log v + if value < v then 1 else 0 := by
  simp [below, List.countP_cons]

theorem atMost_perm {l₁ l₂ : List Number} (h : l₁.Perm l₂) (v : Number) :
    atMost l₁ v = atMost l₂ v := h.countP_eq _

theorem below_perm {l₁ l₂ : List Number} (h : l₁.Perm l₂) (v : Number) :
    below l₁ v = below l₂ v := h.countP_eq _

/-- The weights of samples up to a value are those of values up to it. -/
theorem Ranked.total_le_atMost {flushed : List Number} {xs : List Item} {value : Number}
    (h : Ranked (Reached flushed) 0 xs) (hle : ∀ item ∈ xs, item.value ≤ value) :
    total Item.g xs ≤ atMost flushed value := by
  rcases List.eq_nil_or_concat xs with rfl | ⟨ys, last, rfl⟩
  · exact Int.natCast_nonneg _
  · rw [List.concat_eq_append] at h hle ⊢
    have hlast : Reached flushed (0 + total Item.g ys + last.g) last := (ranked_append.mp h).2.1
    have hmono : atMost flushed last.value ≤ atMost flushed value :=
      atMost_mono flushed (hle last (by simp))
    unfold Reached at hlast
    rw [total_append, total_cons, total_nil]
    omega

/-! ## Rounds of `insertBatch` -/

section Round

variable {c : CKMSQuantiles} {flushed : List Number} (h : Sketches c flushed) (value : Number)

include h in
theorem value_lt_of_mem_take {item : Item} (hitem : item ∈ c.sample_.take (c.insertIndex value)) :
    item.value < value := by
  simpa using (lowerBound_sample h value).before item hitem

include h in
theorem le_value_of_mem_drop {item : Item} (hitem : item ∈ c.sample_.drop (c.insertIndex value)) :
    value ≤ item.value := by
  simpa using (lowerBound_sample h value).after item hitem

include h in
theorem insertValue_ranked_reached (hreached : Ranked (Reached flushed) 0 c.sample_) :
    Ranked (Reached (value :: flushed)) 0 (c.insertValue value).sample_ := by
  rw [← List.take_append_drop (c.insertIndex value) c.sample_, ranked_append] at hreached
  obtain ⟨hbefore, hafter⟩ := hreached
  rw [insertValue_sample, ranked_append]
  refine ⟨hbefore.imp ?_, ?_, hafter.succ ?_⟩
  · intro item _ upto hupto
    unfold Reached at hupto ⊢
    rw [atMost_cons]
    omega
  · have htotal := hbefore.total_le_atMost fun item hitem => (value_lt_of_mem_take h value hitem).le
    show 0 + total Item.g _ + 1 ≤ ((atMost (value :: flushed) value : Nat) : Int)
    rw [atMost_cons, if_pos le_rfl]
    omega
  · intro item hitem upto hupto
    unfold Reached at hupto ⊢
    rw [atMost_cons, if_pos (le_value_of_mem_drop h value hitem)]
    omega

/-- The delta of the new sample covers what the sample behind it leaves open of its rank. At the
front the source gives no delta, so the first sample has to be exact and to stand for one value. -/
def Covered (c : CKMSQuantiles) (value : Number) : Prop :=
  ∀ next ∈ c.sample_[c.insertIndex value]?,
    if c.insertIndex value = 0 then next.g + next.delta ≤ 1
    else Double.le (next.g + next.delta - 2 : Int)
      (allowableError c.quantiles_ (c.insertIndex value + 1) c.sample_.length) = true

instance (c : CKMSQuantiles) (value : Number) : Decidable (Covered c value) := by
  unfold Covered
  infer_instance

variable {value} {targets : List Target}

theorem Covered.le_insertDelta (hcovered : Covered c value)
    (hq : c.quantiles_ = targets.map Target.toQuantile)
    (hindex : c.insertIndex value < c.sample_.length) :
    c.sample_[c.insertIndex value].g + c.sample_[c.insertIndex value].delta - 1 ≤
      c.insertDelta value := by
  have hnext := hcovered _ (List.getElem?_eq_getElem hindex)
  unfold insertDelta
  by_cases hfront : c.insertIndex value = 0
  · rw [if_pos hfront] at hnext
    rw [if_neg (by omega)]
    omega
  · have hcast : ((c.insertIndex value : Int) + 1) = ((c.insertIndex value + 1 : Nat) : Int) := by
      push_cast
      rfl
    rw [if_neg hfront, hq, hcast, allowableError_eq, Double.intCast_eq, Double.le_ofRat,
      decide_eq_true_eq] at hnext
    rw [if_pos ⟨Nat.pos_of_ne_zero hfront, hindex⟩, hq, hcast, allowableError_eq,
      Double.floor_ofRat, Double.toInt_ofRat_intCast]
    have := Int.le_floor.mpr hnext
    omega

include h in
theorem insertValue_ranked_bounded (hq : c.quantiles_ = targets.map Target.toQuantile)
    (hcovered : Covered c value) (hbounded : Ranked (Bounded flushed) 0 c.sample_) :
    Ranked (Bounded (value :: flushed)) 0 (c.insertValue value).sample_ := by
  have hnew : (below flushed value : Int) ≤
      total Item.g (c.sample_.take (c.insertIndex value)) + c.insertDelta value := by
    rcases Nat.lt_or_ge (c.insertIndex value) c.sample_.length with hindex | hindex
    · -- The bracket of the next sample bounds the values below the new one too.
      have hnext := ranked_iff_getElem.mp hbounded _ hindex
      rw [List.take_succ_eq_append_getElem hindex, List.map_append, List.sum_append] at hnext
      have hmono : below flushed value ≤ below flushed c.sample_[c.insertIndex value].value := by
        apply below_mono
        apply le_value_of_mem_drop h value
        rw [List.drop_eq_getElem_cons hindex]
        exact List.mem_cons_self
      have hdelta := hcovered.le_insertDelta hq hindex
      simp only [Bounded, List.map_cons, List.map_nil, List.sum_cons, List.sum_nil] at hnext
      unfold total
      omega
    · -- Behind the last sample the weights are all values there are.
      have hdelta : c.insertDelta value = 0 := if_neg (by omega)
      have hweight : total Item.g c.sample_ = flushed.length := h.weight
      have hle : below flushed value ≤ flushed.length := List.countP_le_length
      rw [List.take_of_length_le hindex, hdelta, hweight]
      omega
  rw [← List.take_append_drop (c.insertIndex value) c.sample_, ranked_append] at hbounded
  obtain ⟨hbefore, hafter⟩ := hbounded
  rw [insertValue_sample, ranked_append]
  refine ⟨hbefore.imp ?_, ?_, hafter.succ ?_⟩
  · intro item hitem upto hupto
    unfold Bounded at hupto ⊢
    rw [below_cons, if_neg (value_lt_of_mem_take h value hitem).le.not_gt]
    omega
  · show ((below (value :: flushed) value : Nat) : Int) + 1 ≤
      0 + total Item.g _ + 1 + c.insertDelta value
    rw [below_cons, if_neg (lt_irrefl value)]
    omega
  · intro item _ upto hupto
    unfold Bounded at hupto ⊢
    rw [below_cons]
    split <;> omega

end Round

/-! ## Runs -/

theorem kept_reached (targets : List Target) : Kept targets (fun _ _ => True) (fun _ => True)
    fun sample flushed => Ranked (Reached flushed) 0 sample where
  empty := trivial
  first value := ⟨by simp [Reached, atMost], trivial⟩
  perm hp h := h.imp fun item _ upto hupto => by
    unfold Reached at hupto ⊢
    rwa [← atMost_perm hp]
  round _ hs _ h := insertValue_ranked_reached hs _ h
  compress _ _ _ h := compress_ranked (fun _ _ _ hupto => hupto) h

theorem kept_bounded (targets : List Target) : Kept targets Covered (fun _ => True)
    fun sample flushed => Ranked (Bounded flushed) 0 sample where
  empty := trivial
  first value := ⟨by simp [Bounded, below], trivial⟩
  perm hp h := h.imp fun item _ upto hupto => by
    unfold Bounded at hupto ⊢
    rwa [← below_perm hp]
  round hq hs hok h := insertValue_ranked_bounded hs hq hok h
  compress _ _ _ h := compress_ranked (fun _ _ _ hupto => hupto) h

/-- The weights up to a sample never overstate the rank of its value. -/
theorem passes_reached (targets : List Target) (calls : List Call) (call : Call) :
    ∀ state ∈ (run (targets.map Target.toQuantile) calls).passes call,
      ∀ i, (h : i < state.sample_.length) →
        ((state.sample_.take (i + 1)).map Item.g).sum ≤
          atMost (inserted (calls ++ [call])) state.sample_[i].value := by
  intro state hstate
  obtain ⟨-, -, hreached⟩ := (kept_reached targets).of_mem_passes_of_true hstate
  exact ranked_iff_getElem.mp hreached

/-- In a run whose rounds give deltas that cover the next sample, the weights up to a sample bracket
the rank of its value behind every `insertBatch` and every `compress`. -/
theorem passes_bracketRanks (targets : List Target) (calls : List Call) (call : Call)
    (hcovered : RunRounds Covered (new (targets.map Target.toQuantile)) (calls ++ [call])) :
    ∀ state ∈ (run (targets.map Target.toQuantile) calls).passes call,
      ∀ i, (h : i < state.sample_.length) →
        ((state.sample_.take (i + 1)).map Item.g).sum ≤
            atMost (inserted (calls ++ [call])) state.sample_[i].value ∧
          (below (inserted (calls ++ [call])) state.sample_[i].value : Int) + 1 ≤
            ((state.sample_.take (i + 1)).map Item.g).sum + state.sample_[i].delta := by
  intro state hstate i hi
  obtain ⟨-, -, hbounded⟩ := (kept_bounded targets).of_mem_passes hcovered
    (runCompressions_of_forall (fun _ => trivial) _ _) hstate
  exact ⟨passes_reached targets calls call state hstate i hi, ranked_iff_getElem.mp hbounded i hi⟩

/-! ## One run that keeps the brackets, and one that does not -/

/-- A value in front of a sample that stands for nothing else. -/
theorem passes_bracketRanks_of_two :
    ∃ state ∈ (run ([fourFifths].map Target.toQuantile)
        [.insert (.fin 2), .get .nan, .insert (.fin 1)]).passes (.get .nan),
      ∃ h : 0 < state.sample_.length, state.sample_[0].value = .fin 1 ∧
        ((state.sample_.take 1).map Item.g).sum ≤
            atMost [.fin 2, .fin 1] state.sample_[0].value ∧
          (below [.fin 2, .fin 1] state.sample_[0].value : Int) + 1 ≤
            ((state.sample_.take 1).map Item.g).sum + state.sample_[0].delta := by
  have hmem : (run ([fourFifths].map Target.toQuantile)
      [.insert (.fin 2), .get .nan, .insert (.fin 1)]).insertBatch ∈
        (run ([fourFifths].map Target.toQuantile)
          [.insert (.fin 2), .get .nan, .insert (.fin 1)]).passes (.get .nan) := List.mem_cons_self
  have hsample : (run ([fourFifths].map Target.toQuantile)
      [.insert (.fin 2), .get .nan, .insert (.fin 1)]).insertBatch.sample_ =
        [⟨.fin 1, 1, 0⟩, ⟨.fin 2, 1, 0⟩] := by decide +kernel
  have hlength : 0 < (run ([fourFifths].map Target.toQuantile)
      [.insert (.fin 2), .get .nan, .insert (.fin 1)]).insertBatch.sample_.length := by
    rw [hsample]
    decide
  refine ⟨_, hmem, hlength, by simp only [hsample]; rfl, ?_⟩
  exact passes_bracketRanks [fourFifths] [.insert (.fin 2), .get .nan, .insert (.fin 1)] (.get .nan)
    (by decide +kernel) _ hmem 0 hlength

/-- The quantile 0.9 with a tolerance of 0.1. -/
def nineTenths : Target where
  quantile := 0.9
  error := 0.1
  quantile_pos := by norm_num
  quantile_lt_one := by norm_num
  error_nonneg := by norm_num

/-- The query of 10 and 5 merges 5 into 10, and the 6 that comes then is the second smallest of
three values, but stands in front of the sample with no delta. -/
theorem passes_not_always_bracketRanks :
    ¬ ∀ (targets : List Target) (calls : List Call) (call : Call), Call.reset ∉ calls →
      ∀ state ∈ (run (targets.map Target.toQuantile) calls).passes call,
        ∀ i, (h : i < state.sample_.length) →
          ((state.sample_.take (i + 1)).map Item.g).sum ≤
              atMost (inserted (calls ++ [call])) state.sample_[i].value ∧
            (below (inserted (calls ++ [call])) state.sample_[i].value : Int) + 1 ≤
              ((state.sample_.take (i + 1)).map Item.g).sum + state.sample_[i].delta := by
  intro h
  have hsample : (run ([nineTenths].map Target.toQuantile) [.insert (.fin 10), .insert (.fin 5),
      .get .nan, .insert (.fin 6)]).insertBatch.sample_ =
        [⟨.fin 6, 1, 0⟩, ⟨.fin 10, 2, 0⟩] := by decide +kernel
  obtain ⟨-, hupper⟩ := h [nineTenths]
    [.insert (.fin 10), .insert (.fin 5), .get .nan, .insert (.fin 6)] (.get .nan) (by decide) _
    List.mem_cons_self 0 (by rw [hsample]; decide)
  simp only [hsample] at hupper
  have hrank : (below [.fin 10, .fin 5, .fin 6] (.fin 6) : Int) + 1 ≤ 1 + 0 := hupper
  have hbelow : below [.fin 10, .fin 5, .fin 6] (.fin 6) = 1 := by decide +kernel
  omega

end PrometheusCpp.CKMSQuantiles
