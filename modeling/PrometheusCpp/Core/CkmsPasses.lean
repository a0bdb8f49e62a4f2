/-
# PrometheusCpp.Core.CkmsPasses -- the states behind every `insertBatch` and `compress`

A call of `insert` or `get` flushes the buffer in two steps, and what the samples say can be looked
at behind each of them (`passes`). `Kept` collects what a statement about samples and flushed values
has to satisfy to hold there in every run (`Kept.of_mem_passes`): a round of `insertBatch` and the merging
of `compress` keep it, as far as the rounds and the states in front of `compress` meet a condition.
-/
import PrometheusCpp.Core.CkmsInvariant
import PrometheusCpp.Lib.WeightedList

namespace PrometheusCpp.CKMSQuantiles

open BinarySearch WeightedList

/-! ## The states -/

/-- The first statement of `insert`. -/
def push (c : CKMSQuantiles) (value : Number) : CKMSQuantiles :=
  { c with buffer_ := c.buffer_ ++ [value] }

/-- The value that fills the buffer flushes it. -/
theorem insert_cases (c : CKMSQuantiles) (value : Number) :
    ((c.push value).buffer_.length = bufferCapacity ∧ c.insert value = (c.push value).flush) ∨
      ((c.push value).buffer_.length ≠ bufferCapacity ∧ c.insert value = c.push value) := by
  by_cases hfull : (c.push value).buffer_.length = bufferCapacity
  · exact .inl ⟨hfull, if_pos hfull⟩
  · exact .inr ⟨hfull, if_neg hfull⟩

/-- The states behind the `insertBatch` and the `compress` of a call. -/
def passes (c : CKMSQuantiles) : Call → List CKMSQuantiles
  | .insert value =>
    if (c.push value).buffer_.length = bufferCapacity then
      [(c.push value).insertBatch, (c.push value).flush]
    else []
  | .get _ => [c.insertBatch, c.flush]
  | .reset => []

/-! ## What a round inserts -/

/-- `idx` of the source. -/
def insertIndex (c : CKMSQuantiles) (value : Number) : Nat :=
  lowerBound (fun item : Item => decide (item.value < value)) c.sample_

/-- `delta` of the source. -/
def insertDelta (c : CKMSQuantiles) (value : Number) : Int :=
  if 0 < c.insertIndex value ∧ c.insertIndex value < c.sample_.length then
    (allowableError c.quantiles_ (c.insertIndex value + 1) c.sample_.length).floor.toInt + 1
  else 0

theorem insertValue_sample (c : CKMSQuantiles) (value : Number) :
    (c.insertValue value).sample_ = c.sample_.take (c.insertIndex value) ++
      ⟨value, 1, c.insertDelta value⟩ :: c.sample_.drop (c.insertIndex value) := rfl

/-! ## Conditions on the rounds of `insertBatch` -/

section Rounds

variable (Ok : CKMSQuantiles → Number → Prop)

/-- The condition holds in front of every round. -/
def Rounds : CKMSQuantiles → List Number → Prop
  | _, [] => True
  | c, value :: rest => Ok c value ∧ Rounds (c.insertValue value) rest

/-- The rounds of one `insertBatch`; the first value goes into an empty sample without one. -/
def BatchRounds (c : CKMSQuantiles) : Prop :=
  match c.buffer_.insertionSort (· ≤ ·) with
  | [] => True
  | front :: rest =>
    match c.sample_ with
    | [] => Rounds Ok { c with sample_ := [⟨front, 1, 0⟩], count_ := c.count_ + 1 } rest
    | _ :: _ => Rounds Ok c (front :: rest)

def CallRounds (c : CKMSQuantiles) : Call → Prop
  | .insert value => (c.push value).buffer_.length = bufferCapacity → BatchRounds Ok (c.push value)
  | .get _ => BatchRounds Ok c
  | .reset => True

/-- The condition holds in front of every round of a run. -/
def RunRounds : CKMSQuantiles → List Call → Prop
  | _, [] => True
  | c, call :: calls => CallRounds Ok c call ∧ RunRounds (step c call) calls

variable [∀ c value, Decidable (Ok c value)]

instance decidableRounds : ∀ c values, Decidable (Rounds Ok c values)
  | _, [] => isTrue trivial
  | c, value :: rest =>
    have := decidableRounds (c.insertValue value) rest
    inferInstanceAs (Decidable (_ ∧ _))

instance (c : CKMSQuantiles) : Decidable (BatchRounds Ok c) := by
  unfold BatchRounds
  split
  · infer_instance
  · split <;> infer_instance

instance (c : CKMSQuantiles) (call : Call) : Decidable (CallRounds Ok c call) := by
  cases call <;> unfold CallRounds <;> infer_instance

instance decidableRunRounds : ∀ c calls, Decidable (RunRounds Ok c calls)
  | _, [] => isTrue trivial
  | c, call :: calls =>
    have := decidableRunRounds (step c call) calls
    inferInstanceAs (Decidable (_ ∧ _))

end Rounds

/-! ## Conditions on the passes of `compress` -/

section Compressions

variable (Ok : CKMSQuantiles → Prop)

def CallCompressions (c : CKMSQuantiles) : Call → Prop
  | .insert value => (c.push value).buffer_.length = bufferCapacity → Ok (c.push value).insertBatch
  | .get _ => Ok c.insertBatch
  | .reset => True

/-- The condition holds in front of every `compress` of a run. -/
def RunCompressions : CKMSQuantiles → List Call → Prop
  | _, [] => True
  | c, call :: calls => CallCompressions Ok c call ∧ RunCompressions (step c call) calls

variable [∀ c, Decidable (Ok c)]

instance (c : CKMSQuantiles) (call : Call) : Decidable (CallCompressions Ok c call) := by
  cases call <;> unfold CallCompressions <;> infer_instance

instance decidableRunCompressions : ∀ c calls, Decidable (RunCompressions Ok c calls)
  | _, [] => isTrue trivial
  | c, call :: calls =>
    have := decidableRunCompressions (step c call) calls
    inferInstanceAs (Decidable (_ ∧ _))

end Compressions

/-! ## What a pass merges -/

section Merges

variable (P : Int → Item → Int → Prop)

/-- Every sample the loop of `compress` makes of two stands as `P` wants it between the weights in
front of it, which are `before`, and the weights behind it. -/
def LoopMerges (quantiles : List Quantile) :
    (index logicalSize : Nat) → (before : Int) → (last : Item) → List Item → Prop
  | _, _, _, _, [] => True
  | index, logicalSize, before, last, current :: rest =>
    if Double.le (last.g + current.g + current.delta : Int)
        (allowableError quantiles index logicalSize) then
      P before { current with g := last.g + current.g } (total Item.g rest) ∧
        LoopMerges quantiles index (logicalSize - 1) before
          { current with g := last.g + current.g } rest
    else
      LoopMerges quantiles (index + 1) logicalSize (before + last.g) current rest

/-- The same of the pass over all samples. -/
def Merges (c : CKMSQuantiles) : Prop :=
  match c.sample_ with
  | [] => True
  | first :: rest => LoopMerges P c.quantiles_ 1 (rest.length + 1) 0 first rest

instance decidableLoopMerges [∀ before item after, Decidable (P before item after)]
    (quantiles : List Quantile) : ∀ index logicalSize before last rest,
      Decidable (LoopMerges P quantiles index logicalSize before last rest)
  | _, _, _, _, [] => isTrue trivial
  | index, logicalSize, before, last, current :: rest =>
    have := decidableLoopMerges quantiles index (logicalSize - 1) before
      { current with g := last.g + current.g } rest
    have := decidableLoopMerges quantiles (index + 1) logicalSize (before + last.g) current rest
    inferInstanceAs (Decidable (if Double.le (last.g + current.g + current.delta : Int)
      (allowableError quantiles index logicalSize) then _ ∧ _ else _))

instance [∀ before item after, Decidable (P before item after)] (c : CKMSQuantiles) :
    Decidable (Merges P c) := by
  unfold Merges
  split <;> infer_instance

variable {P}

theorem compressLoop_total (quantiles : List Quantile) (rest : List Item) (index size : Nat)
    (last : Item) : total Item.g (compressLoop quantiles index size last rest) =
      total Item.g (last :: rest) :=
  compressLoop_weight quantiles rest index size last

/-- The pass leaves the other samples between the weights they have. -/
theorem compressLoop_everywhere (quantiles : List Quantile) (rest : List Item) :
    ∀ (index size : Nat) (last : Item) {before : Int},
      LoopMerges P quantiles index size before last rest →
      Everywhere Item.g P before (last :: rest) 0 →
      Everywhere Item.g P before (compressLoop quantiles index size last rest) 0 := by
  induction rest with
  | nil => intro index size last before _ h; exact h
  | cons current rest ih =>
      intro index size last before hmerges h
      rw [LoopMerges] at hmerges
      rw [compressLoop]
      split at hmerges
      · rename_i hmerge
        rw [if_pos hmerge]
        refine ih _ _ _ hmerges.2 ⟨?_, ?_⟩
        · rw [add_zero]
          exact hmerges.1
        · have htail := h.2.2
          rwa [add_assoc] at htail
      · rename_i hkeep
        rw [if_neg hkeep]
        refine ⟨?_, ih _ _ _ hmerges h.2⟩
        rw [compressLoop_total]
        exact h.1

theorem compress_everywhere {c : CKMSQuantiles} (hmerges : Merges P c)
    (h : Everywhere Item.g P 0 c.sample_ 0) : Everywhere Item.g P 0 c.compress.sample_ 0 := by
  obtain ⟨quantiles, count, sample, buffer⟩ := c
  unfold CKMSQuantiles.compress
  split
  · exact h
  · cases sample with
    | nil => exact h
    | cons first rest => exact compressLoop_everywhere _ _ _ _ _ hmerges h

/-- A round leaves one more in front of the samples behind the new one and behind those in front of
it. -/
theorem insertValue_everywhere (hmono : ∀ {before before' : Int} {item : Item} {after after' : Int},
      before ≤ before' → after ≤ after' → P before item after → P before' item after')
    {c : CKMSQuantiles} {value : Number}
    (hnew : P (total Item.g (c.sample_.take (c.insertIndex value))) ⟨value, 1, c.insertDelta value⟩
      (total Item.g (c.sample_.drop (c.insertIndex value))))
    (h : Everywhere Item.g P 0 c.sample_ 0) :
    Everywhere Item.g P 0 (c.insertValue value).sample_ 0 := by
  rw [← List.take_append_drop (c.insertIndex value) c.sample_, everywhere_append] at h
  rw [insertValue_sample, everywhere_append, everywhere_cons]
  refine ⟨h.1.shift ?_, ?_, h.2.shift ?_⟩
  · intro item _ before after hitem
    refine hmono le_rfl ?_ hitem
    simp only [total_cons]
    omega
  · rw [zero_add, add_zero]
    exact hnew
  · intro item _ before after hitem
    refine hmono ?_ le_rfl hitem
    show _ ≤ _ + 1 + before
    omega

end Merges

/-! ## What holds behind every pass -/

/-- The statement holds of an empty sketch and of one with its first value, whatever the order of
the values, and is kept by the rounds and by the calls of `compress` that meet their condition. -/
structure Kept (targets : List Target) (Ok : CKMSQuantiles → Number → Prop)
    (OkMerge : CKMSQuantiles → Prop) (J : List Item → List Number → Prop) : Prop where
  empty : J [] []
  first : ∀ value, J [⟨value, 1, 0⟩] [value]
  perm : ∀ {sample l₁ l₂}, l₁.Perm l₂ → J sample l₁ → J sample l₂
  round : ∀ {c flushed value}, c.quantiles_ = targets.map Target.toQuantile → Sketches c flushed →
    Ok c value → J c.sample_ flushed → J (c.insertValue value).sample_ (value :: flushed)
  compress : ∀ {c flushed}, c.quantiles_ = targets.map Target.toQuantile → Sketches c flushed →
    OkMerge c → J c.sample_ flushed → J c.compress.sample_ flushed

section Kept

variable {targets : List Target} {Ok : CKMSQuantiles → Number → Prop}
  {OkMerge : CKMSQuantiles → Prop} {J : List Item → List Number → Prop}

theorem Kept.rounds (hkept : Kept targets Ok OkMerge J) (values : List Number) :
    ∀ {c : CKMSQuantiles} {flushed : List Number},
      c.quantiles_ = targets.map Target.toQuantile → Sketches c flushed → Rounds Ok c values →
      J c.sample_ flushed → J (values.foldl insertValue c).sample_ (flushed ++ values) := by
  induction values with
  | nil => intro c flushed _ _ _ h; simpa using h
  | cons value values ih =>
      intro c flushed hq hs hok h
      have hvalue := hkept.round hq hs hok.1 h
      have hrest := ih (by simpa using hq) (insertValue_sketches hq hs value) hok.2 hvalue
      refine hkept.perm ?_ hrest
      rw [List.cons_append]
      exact List.perm_middle.symm

theorem Kept.insertBatch (hkept : Kept targets Ok OkMerge J) {c : CKMSQuantiles} {flushed : List Number}
    (hq : c.quantiles_ = targets.map Target.toQuantile) (hs : Sketches c flushed)
    (hok : BatchRounds Ok c) (h : J c.sample_ flushed) :
    J c.insertBatch.sample_ (flushed ++ c.buffer_) := by
  have hperm : (c.buffer_.insertionSort (· ≤ ·)).Perm c.buffer_ := List.perm_insertionSort _ _
  unfold BatchRounds at hok
  unfold CKMSQuantiles.insertBatch
  split
  · rename_i hnil
    rw [hnil] at hperm
    rw [List.nil_perm.mp hperm, List.append_nil]
    exact h
  · rename_i front rest hsorted
    rw [hsorted] at hperm hok
    refine hkept.perm (hperm.append_left flushed) ?_
    split
    · rename_i hnil
      -- An empty sample has nothing flushed into it yet.
      obtain rfl : flushed = [] := hs.sample_eq_nil_iff.mp hnil
      rw [hnil] at hok
      exact hkept.rounds rest (by exact hq) (sketches_singleton hs front) hok (hkept.first front)
    · rename_i item items hsample
      rw [hsample] at hok
      exact hkept.rounds (front :: rest) hq hs hok h

/-- The state of a sketch in a run, with the statement about its samples. -/
structure Kept.Holds (targets : List Target) (J : List Item → List Number → Prop)
    (c : CKMSQuantiles) (log : List Number) : Prop where
  quantiles : c.quantiles_ = targets.map Target.toQuantile
  flushed : ∃ flushed, Sketches c flushed ∧ J c.sample_ flushed ∧ (flushed ++ c.buffer_).Perm log

variable {c : CKMSQuantiles} {log : List Number}

theorem Kept.Holds.push (h : Kept.Holds targets J c log) (value : Number) :
    Kept.Holds targets J (c.push value) (log ++ [value]) := by
  obtain ⟨flushed, hs, hj, hperm⟩ := h.flushed
  refine ⟨h.quantiles, flushed, hs.with_buffer _, hj, ?_⟩
  show (flushed ++ (c.buffer_ ++ [value])).Perm (log ++ [value])
  rw [← List.append_assoc]
  exact hperm.append_right [value]

/-- Behind `insertBatch` and behind `compress` the statement is about all that was inserted. -/
theorem Kept.Holds.flush (hkept : Kept targets Ok OkMerge J) (h : Kept.Holds targets J c log)
    (hok : BatchRounds Ok c) (hmerge : OkMerge c.insertBatch) :
    Sketches c.insertBatch log ∧ J c.insertBatch.sample_ log ∧
      Sketches c.flush log ∧ J c.flush.sample_ log := by
  obtain ⟨flushed, hs, hj, hperm⟩ := h.flushed
  have hq : c.insertBatch.quantiles_ = targets.map Target.toQuantile := by
    rw [insertBatch_quantiles, h.quantiles]
  have hbatch : Sketches c.insertBatch log := (insertBatch_sketches h.quantiles hs).perm hperm
  have hj' : J c.insertBatch.sample_ log :=
    hkept.perm hperm (hkept.insertBatch h.quantiles hs hok hj)
  exact ⟨hbatch, hj', compress_sketches hbatch, hkept.compress hq hbatch hmerge hj'⟩

theorem Kept.Holds.flushed_state (hkept : Kept targets Ok OkMerge J) (h : Kept.Holds targets J c log)
    (hok : BatchRounds Ok c) (hmerge : OkMerge c.insertBatch) :
    Kept.Holds targets J c.flush log := by
  obtain ⟨-, -, hs, hj⟩ := h.flush hkept hok hmerge
  refine ⟨?_, log, hs, hj, ?_⟩
  · rw [CKMSQuantiles.flush, compress_quantiles, insertBatch_quantiles, h.quantiles]
  · rw [flush_buffer, List.append_nil]

theorem Kept.step (hkept : Kept targets Ok OkMerge J) (h : Kept.Holds targets J c log) (call : Call)
    (hok : CallRounds Ok c call) (hmerge : CallCompressions OkMerge c call) :
    Kept.Holds targets J (step c call) (logStep log call) := by
  cases call with
  | insert value =>
      rw [show CKMSQuantiles.step c (.insert value) = c.insert value from rfl]
      obtain ⟨hfull, hinsert⟩ | ⟨-, hinsert⟩ := c.insert_cases value
      · rw [hinsert]
        exact (h.push value).flushed_state hkept (hok hfull) (hmerge hfull)
      · rw [hinsert]
        exact h.push value
  | get q => exact h.flushed_state hkept hok hmerge
  | reset =>
      have hempty : Sketches c.reset [] := by
        constructor <;> simp [CKMSQuantiles.reset, LastExact]
      exact ⟨h.quantiles, [], hempty, hkept.empty, .nil⟩

theorem Kept.run (hkept : Kept targets Ok OkMerge J) (calls : List Call) :
    ∀ {c : CKMSQuantiles} {log : List Number}, Kept.Holds targets J c log → RunRounds Ok c calls →
      RunCompressions OkMerge c calls →
      Kept.Holds targets J (calls.foldl CKMSQuantiles.step c) (calls.foldl logStep log) := by
  induction calls with
  | nil => intro c log h _ _; exact h
  | cons call calls ih =>
      intro c log h hok hmerge
      exact ih (hkept.step h call hok.1 hmerge.1) hok.2 hmerge.2

theorem Kept.new (hkept : Kept targets Ok OkMerge J) :
    Kept.Holds targets J (new (targets.map Target.toQuantile)) [] :=
  ⟨rfl, [], sketches_new _, hkept.empty, .nil⟩

theorem runRounds_append (Ok : CKMSQuantiles → Number → Prop) (calls : List Call) (call : Call) :
    ∀ c, RunRounds Ok c (calls ++ [call]) ↔
      RunRounds Ok c calls ∧ CallRounds Ok (calls.foldl CKMSQuantiles.step c) call := by
  induction calls with
  | nil => intro c; exact ⟨fun h => ⟨trivial, h.1⟩, fun h => ⟨h.2, trivial⟩⟩
  | cons first calls ih =>
      intro c
      rw [List.cons_append, RunRounds, RunRounds, ih, List.foldl_cons, and_assoc]

theorem runCompressions_append (Ok : CKMSQuantiles → Prop) (calls : List Call) (call : Call) :
    ∀ c, RunCompressions Ok c (calls ++ [call]) ↔
      RunCompressions Ok c calls ∧
        CallCompressions Ok (calls.foldl CKMSQuantiles.step c) call := by
  induction calls with
  | nil => intro c; exact ⟨fun h => ⟨trivial, h.1⟩, fun h => ⟨h.2, trivial⟩⟩
  | cons first calls ih =>
      intro c
      rw [List.cons_append, RunCompressions, RunCompressions, ih, List.foldl_cons, and_assoc]

/-- In a run whose rounds and merges meet the conditions, the statement holds behind every pass, of
all values inserted since the last reset. -/
theorem Kept.of_mem_passes (hkept : Kept targets Ok OkMerge J) {calls : List Call} {call : Call}
    (hok : RunRounds Ok (CKMSQuantiles.new (targets.map Target.toQuantile)) (calls ++ [call]))
    (hmerge : RunCompressions OkMerge (CKMSQuantiles.new (targets.map Target.toQuantile))
      (calls ++ [call]))
    {state : CKMSQuantiles}
    (hstate : state ∈ (CKMSQuantiles.run (targets.map Target.toQuantile) calls).passes call) :
    state.quantiles_ = targets.map Target.toQuantile ∧
      Sketches state (inserted (calls ++ [call])) ∧
      J state.sample_ (inserted (calls ++ [call])) := by
  obtain ⟨hcalls, hcall⟩ := (runRounds_append Ok calls call _).mp hok
  obtain ⟨hmerges, hcall_merge⟩ := (runCompressions_append OkMerge calls call _).mp hmerge
  have h := hkept.run calls hkept.new hcalls hmerges
  -- Both states of a flush, from the state with the buffer that is flushed.
  have hflush : ∀ {c : CKMSQuantiles} {log : List Number}, Kept.Holds targets J c log →
      BatchRounds Ok c → OkMerge c.insertBatch → state ∈ [c.insertBatch, c.flush] →
      state.quantiles_ = targets.map Target.toQuantile ∧ Sketches state log ∧
        J state.sample_ log := by
    intro c log hc hrounds hpass hmem
    obtain ⟨hs, hj, hs', hj'⟩ := hc.flush hkept hrounds hpass
    rcases List.mem_cons.mp hmem with rfl | hmem
    · exact ⟨by rw [insertBatch_quantiles, hc.quantiles], hs, hj⟩
    · obtain rfl := List.mem_singleton.mp hmem
      exact ⟨(hc.flushed_state hkept hrounds hpass).quantiles, hs', hj'⟩
  have hlog : inserted (calls ++ [call]) = logStep (calls.foldl logStep []) call := by
    rw [inserted, List.foldl_append]
    rfl
  rw [hlog]
  cases call with
  | insert value =>
      rw [passes] at hstate
      split at hstate
      · rename_i hfull
        exact hflush (h.push value) (hcall hfull) (hcall_merge hfull) hstate
      · exact absurd hstate List.not_mem_nil
  | get q => exact hflush h hcall hcall_merge hstate
  | reset => exact absurd hstate List.not_mem_nil

end Kept

/-- A condition that always holds holds in every run. -/
theorem runRounds_of_forall {Ok : CKMSQuantiles → Number → Prop} (h : ∀ c value, Ok c value)
    (calls : List Call) : ∀ c, RunRounds Ok c calls := by
  have hrounds : ∀ (values : List Number) (c : CKMSQuantiles), Rounds Ok c values := by
    intro values
    induction values with
    | nil => intro c; trivial
    | cons value values ih => intro c; exact ⟨h c value, ih _⟩
  have hbatch : ∀ c : CKMSQuantiles, BatchRounds Ok c := by
    intro c
    unfold BatchRounds
    split
    · trivial
    · split <;> exact hrounds _ _
  induction calls with
  | nil => intro c; trivial
  | cons call calls ih =>
      intro c
      refine ⟨?_, ih _⟩
      cases call with
      | insert value => exact fun _ => hbatch _
      | get q => exact hbatch c
      | reset => trivial

theorem runCompressions_of_forall {Ok : CKMSQuantiles → Prop} (h : ∀ c, Ok c)
    (calls : List Call) : ∀ c, RunCompressions Ok c calls := by
  induction calls with
  | nil => intro c; trivial
  | cons call calls ih =>
      intro c
      refine ⟨?_, ih _⟩
      cases call with
      | insert value => exact fun _ => h _
      | get q => exact h _
      | reset => trivial

/-- Without a condition on the rounds and the merges the statement holds in every run. -/
theorem Kept.of_mem_passes_of_true {targets : List Target} {J : List Item → List Number → Prop}
    (hkept : Kept targets (fun _ _ => True) (fun _ => True) J) {calls : List Call} {call : Call}
    {state : CKMSQuantiles}
    (hstate : state ∈ (CKMSQuantiles.run (targets.map Target.toQuantile) calls).passes call) :
    state.quantiles_ = targets.map Target.toQuantile ∧
      Sketches state (inserted (calls ++ [call])) ∧
      J state.sample_ (inserted (calls ++ [call])) :=
  hkept.of_mem_passes (runRounds_of_forall (fun _ _ => trivial) _ _)
    (runCompressions_of_forall (fun _ => trivial) _ _) hstate

end PrometheusCpp.CKMSQuantiles
