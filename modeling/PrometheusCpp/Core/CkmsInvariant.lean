/-
# PrometheusCpp.Core.CkmsInvariant -- what a sketch always says about its observations

`Sketches c flushed` relates the samples of a sketch to the values flushed into it: the samples are
sorted values from among them, the weights add up to their number, and the last sample is exact.
Inserting a value and merging neighbours preserve it, so it holds after every run (`run_inv`).
-/
import PrometheusCpp.Core.CkmsQuantiles

namespace PrometheusCpp.CKMSQuantiles

open BinarySearch

/-- The last sample of a sketch is the largest value flushed and its rank is certain. -/
def LastExact (sample : List Item) (flushed : List Number) : Prop :=
  ∀ last ∈ sample.getLast?, last.delta = 0 ∧ ∀ x ∈ flushed, x ≤ last.value

structure Sketches (c : CKMSQuantiles) (flushed : List Number) : Prop where
  sorted : c.sample_.Pairwise fun a b => a.value ≤ b.value
  mem : ∀ item ∈ c.sample_, item.value ∈ flushed
  g_pos : ∀ item ∈ c.sample_, 1 ≤ item.g
  delta_nonneg : ∀ item ∈ c.sample_, 0 ≤ item.delta
  weight : (c.sample_.map Item.g).sum = flushed.length
  count : c.count_ = flushed.length
  last : LastExact c.sample_ flushed

theorem LastExact.perm {sample : List Item} {l₁ l₂ : List Number} (h : LastExact sample l₁)
    (hp : l₁.Perm l₂) : LastExact sample l₂ := fun last hlast =>
  ⟨(h last hlast).1, fun x hx => (h last hlast).2 x (hp.mem_iff.mpr hx)⟩

/-- The order the values came in does not matter. -/
theorem Sketches.perm {c : CKMSQuantiles} {l₁ l₂ : List Number} (h : Sketches c l₁)
    (hp : l₁.Perm l₂) : Sketches c l₂ where
  sorted := h.sorted
  mem item hitem := hp.mem_iff.mp (h.mem item hitem)
  g_pos := h.g_pos
  delta_nonneg := h.delta_nonneg
  weight := by rw [h.weight, hp.length_eq]
  count := by rw [h.count, hp.length_eq]
  last := h.last.perm hp

/-- Nothing was flushed exactly when there is no sample. -/
theorem Sketches.sample_eq_nil_iff {c : CKMSQuantiles} {flushed : List Number}
    (h : Sketches c flushed) : c.sample_ = [] ↔ flushed = [] := by
  constructor
  · intro hnil
    have hweight := h.weight
    rw [hnil, List.map_nil, List.sum_nil] at hweight
    exact List.length_eq_zero_iff.mp (by exact_mod_cast hweight.symm)
  · intro hnil
    refine List.eq_nil_iff_forall_not_mem.mpr fun item hitem => ?_
    have hmem := h.mem item hitem
    rw [hnil] at hmem
    exact List.not_mem_nil hmem

theorem sketches_new (quantiles : List Quantile) : Sketches (new quantiles) [] := by
  constructor <;> simp [new, LastExact]

/-! ## Inserting a value -/

section Insert

variable {c : CKMSQuantiles} {flushed : List Number}

/-- The index `std::lower_bound` finds in a sorted sample. -/
theorem lowerBound_sample (h : Sketches c flushed) (value : Number) :
    IsPartitionPoint (fun item : Item => decide (item.value < value)) c.sample_
      (lowerBound (fun item : Item => decide (item.value < value)) c.sample_) := by
  refine lowerBound_isPartitionPoint (h.sorted.imp ?_)
  intro a b hab hb
  simp only [decide_eq_true_eq] at hb ⊢
  exact lt_of_le_of_lt hab hb

/-- The samples behind a round are the old ones and the new one, in some order. -/
theorem insert_at_perm (sample : List Item) (i : Nat) (item : Item) :
    (sample.take i ++ item :: sample.drop i).Perm (item :: sample) := by
  refine List.perm_middle.trans (List.Perm.cons _ ?_)
  rw [List.take_append_drop]

/-- A value put at its partition point keeps the samples sorted. -/
theorem sorted_insert_at {value : Number} {sample : List Item} {i : Nat} {g delta : Int}
    (hs : sample.Pairwise fun a b => a.value ≤ b.value)
    (hp : IsPartitionPoint (fun item : Item => decide (item.value < value)) sample i) :
    (sample.take i ++ ⟨value, g, delta⟩ :: sample.drop i).Pairwise
      fun a b => a.value ≤ b.value := by
  have hsplit := hs
  rw [← List.take_append_drop i sample, List.pairwise_append] at hsplit
  obtain ⟨htake, hdrop, hcross⟩ := hsplit
  have hbefore : ∀ item ∈ sample.take i, item.value ≤ value := fun item hitem =>
    (by simpa using hp.before item hitem : item.value < value).le
  have hafter : ∀ item ∈ sample.drop i, value ≤ item.value := fun item hitem => by
    simpa using hp.after item hitem
  rw [List.pairwise_append, List.pairwise_cons]
  refine ⟨htake, ⟨hafter, hdrop⟩, ?_⟩
  intro a ha b hb
  rcases List.mem_cons.mp hb with rfl | hb
  · exact hbefore a ha
  · exact hcross a ha b hb

/-- The new sample is last only when every other value is smaller. -/
theorem lastExact_insert_at {value : Number} {sample : List Item} {i : Nat} {delta : Int}
    (hl : LastExact sample flushed) (hne : sample = [] → flushed = [])
    (hp : IsPartitionPoint (fun item : Item => decide (item.value < value)) sample i)
    (hdelta : i = sample.length → delta = 0) :
    LastExact (sample.take i ++ ⟨value, 1, delta⟩ :: sample.drop i) (value :: flushed) := by
  intro last hlast
  rcases Nat.lt_or_ge i sample.length with hlt | hge
  · -- Behind the new sample there are others, and the last of them stays.
    have hdrop : sample.drop i ≠ [] := by simpa using hlt
    have hsame : last ∈ sample.getLast? := by
      rw [List.getLast?_append_cons, List.getLast?_cons_of_ne_nil hdrop] at hlast
      rwa [List.getLast?_drop, if_neg (by omega)] at hlast
    obtain ⟨hzero, hmax⟩ := hl last hsame
    refine ⟨hzero, List.forall_mem_cons.mpr ⟨?_, hmax⟩⟩
    have hmem : last ∈ sample.drop i := by
      refine List.mem_of_getLast? ?_
      rw [List.getLast?_drop, if_neg (by omega)]
      exact hsame
    simpa using hp.after last hmem
  · -- The new sample is the last one, and the old maximum is smaller.
    have hlen : i = sample.length := le_antisymm hp.le_length hge
    have hdrop : sample.drop i = [] := List.drop_eq_nil_of_le hge
    rw [List.getLast?_append_cons, hdrop] at hlast
    obtain rfl : (⟨value, 1, delta⟩ : Item) = last := by simpa using hlast
    refine ⟨hdelta hlen, List.forall_mem_cons.mpr ⟨le_rfl, fun x hx => ?_⟩⟩
    cases hlast? : sample.getLast? with
    | none =>
        rw [hne (by simpa using hlast?)] at hx
        exact absurd hx List.not_mem_nil
    | some old =>
        have hold : old ∈ sample.take i := by
          rw [hlen, List.take_length]
          exact List.mem_of_getLast? hlast?
        have hlt : old.value < value := by simpa using hp.before old hold
        exact ((hl old hlast?).2 x hx).trans hlt.le

/-- The delta a new sample is given. -/
theorem insertValue_delta_nonneg {targets : List Target}
    (hq : c.quantiles_ = targets.map Target.toQuantile) (i : Nat) :
    0 ≤ (allowableError c.quantiles_ (i + 1) c.sample_.length).floor.toInt + 1 := by
  have hcast : ((i : Int) + 1) = ((i + 1 : Nat) : Int) := by push_cast; rfl
  have hbound : 0 ≤ errorBound targets ((i + 1 : Nat) : Int) c.sample_.length :=
    errorBound_nonneg targets (by positivity) (by positivity)
  rw [hq, hcast, allowableError_eq, Double.floor_ofRat, Double.toInt_ofRat_intCast]
  have := Int.floor_nonneg.mpr hbound
  omega

/-- What a round of `insertBatch` does: the value goes to its partition point, with a delta that is
not negative, and zero at the end of the sample. -/
theorem insertValue_cases {targets : List Target}
    (hq : c.quantiles_ = targets.map Target.toQuantile) (h : Sketches c flushed)
    (value : Number) : ∃ (i : Nat) (delta : Int),
      IsPartitionPoint (fun item : Item => decide (item.value < value)) c.sample_ i ∧
      0 ≤ delta ∧ (i = c.sample_.length → delta = 0) ∧
      c.insertValue value = { c with
        sample_ := c.sample_.take i ++ ⟨value, 1, delta⟩ :: c.sample_.drop i
        count_ := c.count_ + 1 } := by
  refine ⟨_, _, lowerBound_sample h value, ?_, ?_, rfl⟩
  · split
    · exact insertValue_delta_nonneg hq _
    · exact le_rfl
  · -- At the end of the sample the source gives no delta.
    intro hi
    rw [if_neg (by omega)]

theorem insertValue_sketches {targets : List Target}
    (hq : c.quantiles_ = targets.map Target.toQuantile) (h : Sketches c flushed)
    (value : Number) : Sketches (c.insertValue value) (value :: flushed) := by
  obtain ⟨i, delta, hp, hnonneg, hlast, heq⟩ := insertValue_cases hq h value
  rw [heq]
  have hperm := insert_at_perm c.sample_ i ⟨value, 1, delta⟩
  have hmem : ∀ {P : Item → Prop}, P ⟨value, 1, delta⟩ → (∀ item ∈ c.sample_, P item) →
      ∀ item ∈ c.sample_.take i ++ ⟨value, 1, delta⟩ :: c.sample_.drop i, P item := by
    intro P hnew hold item hitem
    exact List.forall_mem_cons.mpr ⟨hnew, hold⟩ item (hperm.mem_iff.mp hitem)
  exact
    { sorted := sorted_insert_at h.sorted hp
      mem := hmem List.mem_cons_self fun item hitem =>
        List.mem_cons_of_mem _ (h.mem item hitem)
      g_pos := hmem le_rfl h.g_pos
      delta_nonneg := hmem hnonneg h.delta_nonneg
      weight := by
        rw [(hperm.map Item.g).sum_eq, List.map_cons, List.sum_cons, h.weight, List.length_cons]
        push_cast
        ring
      count := by rw [List.length_cons, h.count]
      last := lastExact_insert_at h.last h.sample_eq_nil_iff.mp hp hlast }

@[simp] theorem insertValue_quantiles (c : CKMSQuantiles) (value : Number) :
    (c.insertValue value).quantiles_ = c.quantiles_ := rfl

theorem foldl_insertValue_quantiles (values : List Number) (c : CKMSQuantiles) :
    (values.foldl insertValue c).quantiles_ = c.quantiles_ := by
  induction values generalizing c with
  | nil => rfl
  | cons value values ih => rw [List.foldl_cons, ih, insertValue_quantiles]

theorem foldl_insertValue_sketches {targets : List Target} (values : List Number)
    {c : CKMSQuantiles} {flushed : List Number}
    (hq : c.quantiles_ = targets.map Target.toQuantile) (h : Sketches c flushed) :
    Sketches (values.foldl insertValue c) (flushed ++ values) := by
  induction values generalizing c flushed with
  | nil => simpa using h
  | cons value values ih =>
      have hstep := ih (c := c.insertValue value) (by simpa using hq) (insertValue_sketches hq h value)
      refine hstep.perm ?_
      rw [List.cons_append]
      exact List.perm_middle.symm

end Insert

/-! ## Flushing -/

section Flush

variable {c : CKMSQuantiles} {flushed : List Number} {targets : List Target}

/-- The first value of an empty sketch. -/
theorem sketches_singleton (h : Sketches c []) (value : Number) :
    Sketches { c with sample_ := [⟨value, 1, 0⟩], count_ := c.count_ + 1 } [value] := by
  have hcount : c.count_ = 0 := h.count
  constructor <;> simp [LastExact, hcount]

theorem insertBatch_quantiles (c : CKMSQuantiles) :
    c.insertBatch.quantiles_ = c.quantiles_ := by
  unfold insertBatch
  split
  · rfl
  · split <;> simp [foldl_insertValue_quantiles]

theorem insertBatch_buffer (c : CKMSQuantiles) : c.insertBatch.buffer_ = [] := by
  unfold insertBatch
  split
  · rename_i hnil
    have hperm := List.perm_insertionSort (· ≤ ·) c.buffer_
    rw [hnil] at hperm
    exact List.nil_perm.mp hperm
  · rfl

/-- Replacing the buffer of a sketch leaves it the same sketch. -/
theorem Sketches.with_buffer (h : Sketches c flushed) (buffer : List Number) :
    Sketches { c with buffer_ := buffer } flushed :=
  ⟨h.sorted, h.mem, h.g_pos, h.delta_nonneg, h.weight, h.count, h.last⟩

theorem insertBatch_sketches (hq : c.quantiles_ = targets.map Target.toQuantile)
    (h : Sketches c flushed) : Sketches c.insertBatch (flushed ++ c.buffer_) := by
  have hperm : (c.buffer_.insertionSort (· ≤ ·)).Perm c.buffer_ :=
    List.perm_insertionSort _ _
  unfold insertBatch
  split
  · rename_i hnil
    rw [hnil] at hperm
    rw [List.nil_perm.mp hperm, List.append_nil]
    exact h
  · rename_i front rest hsorted
    rw [hsorted] at hperm
    have hall : (flushed ++ front :: rest).Perm (flushed ++ c.buffer_) := hperm.append_left _
    refine Sketches.perm ?_ hall
    split
    · rename_i hnil
      -- An empty sample has nothing flushed into it yet.
      obtain rfl : flushed = [] := h.sample_eq_nil_iff.mp hnil
      have hfold := foldl_insertValue_sketches rest (by exact hq) (sketches_singleton h front)
      exact hfold.with_buffer []
    · exact (foldl_insertValue_sketches (front :: rest) hq h).with_buffer []

/-! A pass of `compress` keeps some of the samples, in order and the last one among them, and only
their weights change. -/

/-- A sample without its weight. -/
def Item.key (item : Item) : Number × Int := (item.value, item.delta)

theorem compressLoop_keys (quantiles : List Quantile) :
    ∀ (rest : List Item) (index size : Nat) (last : Item),
      ((compressLoop quantiles index size last rest).map Item.key).Sublist
        ((last :: rest).map Item.key) := by
  intro rest
  induction rest with
  | nil => intro index size last; exact List.Sublist.refl _
  | cons current rest ih =>
      intro index size last
      rw [compressLoop]
      split
      · exact (ih index (size - 1) { current with g := last.g + current.g }).cons _
      · exact (ih (index + 1) size current).cons_cons _

theorem compressLoop_ne_nil (quantiles : List Quantile) :
    ∀ (rest : List Item) (index size : Nat) (last : Item),
      compressLoop quantiles index size last rest ≠ [] := by
  intro rest
  induction rest with
  | nil => intro index size last; simp [compressLoop]
  | cons current rest ih =>
      intro index size last
      rw [compressLoop]
      split
      · exact ih _ _ _
      · simp

theorem compressLoop_last_key (quantiles : List Quantile) :
    ∀ (rest : List Item) (index size : Nat) (last : Item),
      (compressLoop quantiles index size last rest).getLast?.map Item.key =
        (last :: rest).getLast?.map Item.key := by
  intro rest
  induction rest with
  | nil => intro index size last; rfl
  | cons current rest ih =>
      intro index size last
      rw [compressLoop, List.getLast?_cons_cons]
      split
      · rw [ih]
        cases rest with
        | nil => rfl
        | cons next rest => rfl
      · rw [List.getLast?_cons_of_ne_nil (compressLoop_ne_nil _ _ _ _ _), ih]

theorem compressLoop_weight (quantiles : List Quantile) :
    ∀ (rest : List Item) (index size : Nat) (last : Item),
      ((compressLoop quantiles index size last rest).map Item.g).sum =
        ((last :: rest).map Item.g).sum := by
  intro rest
  induction rest with
  | nil => intro index size last; rfl
  | cons current rest ih =>
      intro index size last
      rw [compressLoop]
      split
      · rw [ih]
        simp only [List.map_cons, List.sum_cons]
        omega
      · simp only [List.map_cons, List.sum_cons, ih]

/-- A merged sample is one of those merged, with another weight. -/
theorem compressLoop_forall {P : Item → Prop}
    (hmerge : ∀ a b : Item, P a → P b → P { b with g := a.g + b.g }) (quantiles : List Quantile)
    (rest : List Item) : ∀ (index size : Nat) (last : Item), (∀ item ∈ last :: rest, P item) →
      ∀ item ∈ compressLoop quantiles index size last rest, P item := by
  induction rest with
  | nil => exact fun _ _ _ h => h
  | cons current rest ih =>
      intro index size last h
      obtain ⟨hlast, hcurrent, hrest⟩ := by simpa only [List.forall_mem_cons] using h
      rw [compressLoop]
      split
      · exact ih _ _ _ (List.forall_mem_cons.mpr ⟨hmerge last current hlast hcurrent, hrest⟩)
      · exact List.forall_mem_cons.mpr
          ⟨hlast, ih _ _ _ (List.forall_mem_cons.mpr ⟨hcurrent, hrest⟩)⟩

theorem compressLoop_g_pos (quantiles : List Quantile) (rest : List Item) (index size : Nat)
    (last : Item) : (∀ item ∈ last :: rest, 1 ≤ item.g) →
      ∀ item ∈ compressLoop quantiles index size last rest, 1 ≤ item.g := by
  refine compressLoop_forall (fun a b ha hb => ?_) quantiles rest index size last
  show 1 ≤ a.g + b.g
  omega

theorem compress_quantiles (c : CKMSQuantiles) : c.compress.quantiles_ = c.quantiles_ := by
  unfold compress
  split <;> rfl

theorem compress_buffer (c : CKMSQuantiles) : c.compress.buffer_ = c.buffer_ := by
  unfold compress
  split <;> rfl

theorem compress_sketches (h : Sketches c flushed) : Sketches c.compress flushed := by
  unfold compress
  split
  · exact h
  · obtain ⟨quantiles, count, sample, buffer⟩ := c
    cases sample with
    | nil => exact h
    | cons first rest =>
        have hkeys := compressLoop_keys quantiles rest 1 (rest.length + 1) first
        -- What holds of every key of the old sample holds of the new one's.
        have hkey : ∀ item ∈ compressLoop quantiles 1 (rest.length + 1) first rest,
            ∃ old ∈ first :: rest, old.value = item.value ∧ old.delta = item.delta := by
          intro item hitem
          obtain ⟨old, hold, heq⟩ :=
            List.mem_map.mp (hkeys.subset (List.mem_map_of_mem hitem))
          exact ⟨old, hold, congrArg Prod.fst heq, congrArg Prod.snd heq⟩
        refine
          { sorted := ?_, mem := ?_
            g_pos := compressLoop_g_pos _ _ _ _ _ h.g_pos
            delta_nonneg := ?_
            weight := (compressLoop_weight _ _ _ _ _).trans h.weight
            count := h.count, last := ?_ }
        · have hs : ((first :: rest).map Item.key).Pairwise fun a b => a.1 ≤ b.1 :=
            List.pairwise_map.mpr h.sorted
          exact (List.pairwise_map (f := Item.key)).mp (hs.sublist hkeys)
        · intro item hitem
          obtain ⟨old, hold, hvalue, -⟩ := hkey item hitem
          exact hvalue ▸ h.mem old hold
        · intro item hitem
          obtain ⟨old, hold, -, hdelta⟩ := hkey item hitem
          exact hdelta ▸ h.delta_nonneg old hold
        · intro last hlast
          have hmap := compressLoop_last_key quantiles rest 1 (rest.length + 1) first
          have hlast' : (compressLoop quantiles 1 (rest.length + 1) first rest).getLast? = some last :=
            hlast
          rw [hlast', Option.map_some] at hmap
          obtain ⟨old, hold, heq⟩ := Option.map_eq_some_iff.mp hmap.symm
          obtain ⟨hzero, hmax⟩ := h.last old hold
          have hvalue : old.value = last.value := congrArg Prod.fst heq
          have hdelta : old.delta = last.delta := congrArg Prod.snd heq
          exact ⟨hdelta ▸ hzero, fun x hx => hvalue ▸ hmax x hx⟩

end Flush

/-! ## Runs -/

theorem step_quantiles (c : CKMSQuantiles) (call : Call) :
    (step c call).quantiles_ = c.quantiles_ := by
  cases call with
  | insert value =>
      rw [step, insert]
      split
      · rw [compress_quantiles, insertBatch_quantiles]
      · rfl
  | get q => exact (compress_quantiles _).trans (insertBatch_quantiles c)
  | reset => rfl

/-- No call changes the targets. -/
theorem run_quantiles (quantiles : List Quantile) (calls : List Call) :
    (run quantiles calls).quantiles_ = quantiles := by
  have hfold : ∀ c, (calls.foldl step c).quantiles_ = c.quantiles_ := by
    induction calls with
    | nil => exact fun c => rfl
    | cons call calls ih => exact fun c => (ih _).trans (step_quantiles c call)
  exact hfold (new quantiles)

/-- The state of a sketch between two calls, against the values inserted since the last reset. -/
structure Inv (targets : List Target) (c : CKMSQuantiles) (log : List Number) : Prop where
  quantiles : c.quantiles_ = targets.map Target.toQuantile
  flushed : ∃ flushed, Sketches c flushed ∧ (flushed ++ c.buffer_).Perm log
  buffer : c.buffer_.length < bufferCapacity

section Run

variable {targets : List Target} {c : CKMSQuantiles} {log : List Number}

/-- Behind a flush the samples speak of everything inserted. -/
theorem Inv.flush_sketches (h : Inv targets c log) : Sketches c.flush log := by
  obtain ⟨flushed, hs, hperm⟩ := h.flushed
  exact (compress_sketches (insertBatch_sketches h.quantiles hs)).perm hperm

theorem Inv.flush_quantiles (h : Inv targets c log) :
    c.flush.quantiles_ = targets.map Target.toQuantile := by
  rw [flush, compress_quantiles, insertBatch_quantiles, h.quantiles]

theorem flush_buffer (c : CKMSQuantiles) : c.flush.buffer_ = [] := by
  rw [flush, compress_buffer, insertBatch_buffer]

theorem inv_of_sketches (hq : c.quantiles_ = targets.map Target.toQuantile)
    (hs : Sketches c log) (hb : c.buffer_ = []) : Inv targets c log :=
  ⟨hq, ⟨log, hs, by rw [hb, List.append_nil]⟩, by rw [hb]; decide⟩

theorem Inv.flush (h : Inv targets c log) : Inv targets c.flush log :=
  inv_of_sketches h.flush_quantiles h.flush_sketches (flush_buffer c)

theorem Inv.insert (h : Inv targets c log) (value : Number) :
    Inv targets (c.insert value) (log ++ [value]) := by
  obtain ⟨flushed, hs, hperm⟩ := h.flushed
  -- The state once the value is in the buffer.
  have hpushed : Sketches { c with buffer_ := c.buffer_ ++ [value] } flushed := hs.with_buffer _
  have hall : (flushed ++ (c.buffer_ ++ [value])).Perm (log ++ [value]) := by
    rw [← List.append_assoc]
    exact hperm.append_right [value]
  unfold CKMSQuantiles.insert
  simp only
  split
  · -- A full buffer is flushed at once, so between two calls it is never full.
    refine inv_of_sketches ?_ ?_ ?_
    · rw [compress_quantiles, insertBatch_quantiles, h.quantiles]
    · exact (compress_sketches (insertBatch_sketches (by exact h.quantiles) hpushed)).perm hall
    · rw [compress_buffer, insertBatch_buffer]
  · rename_i hroom
    have hlt := h.buffer
    refine ⟨h.quantiles, ⟨flushed, hpushed, hall⟩, ?_⟩
    simp only [List.length_append, List.length_singleton] at hroom ⊢
    omega

theorem Inv.reset (h : Inv targets c log) : Inv targets c.reset [] := by
  refine inv_of_sketches h.quantiles ?_ rfl
  constructor <;> simp [CKMSQuantiles.reset, LastExact]

theorem inv_new (targets : List Target) : Inv targets (new (targets.map Target.toQuantile)) [] :=
  inv_of_sketches rfl (sketches_new _) rfl

theorem step_inv (h : Inv targets c log) (call : Call) :
    Inv targets (step c call) (logStep log call) := by
  cases call with
  | insert value => exact h.insert value
  | get q => exact h.flush
  | reset => exact h.reset

theorem run_inv (targets : List Target) (calls : List Call) :
    Inv targets (run (targets.map Target.toQuantile) calls) (inserted calls) :=
  List.foldl_rel (r := Inv targets) (inv_new targets) fun call _ _ _ h => step_inv h call

end Run

end PrometheusCpp.CKMSQuantiles
