/-
# PrometheusCpp.Core.CkmsIntRange -- when the ranks of a sketch fit 32-bit integers

The weights up to a sample are at most the number of observations. So nothing leaves the range of
`int` as long as that number and the recorded upper ranks stay within it; once there are more
observations than the largest `int`, the desired rank of the largest quantile has no value
(`run_inRange`).
-/
import PrometheusCpp.Core.CkmsRanks
import PrometheusCpp.Core.CkmsWeights

namespace PrometheusCpp.CKMSQuantiles

open BinarySearch WeightedList CheckedInt

/-! ## Where there is room -/

/-- The recorded upper rank of the sample stays within `int` when so many more values come in front
of it. -/
def Leaves (spare : Int) (upto : Int) (item : Item) : Prop := upto + item.delta + spare ≤ intMax

/-- A sketch with room for its buffer to be flushed: for the number of its values, for the recorded
upper rank of every sample with all buffered values in front of it, and for the ranks of the
buffered values with the largest deltas the sample size allows. -/
structure Room (c : CKMSQuantiles) : Prop where
  count : (c.count_ + c.buffer_.length : Int) ≤ intMax
  ranks : Ranked (Leaves c.buffer_.length) 0 c.sample_
  buffered : c.buffer_ ≠ [] →
    (c.count_ + c.buffer_.length : Int) + (c.sample_.length + c.buffer_.length + 1) ≤ intMax

instance (spare upto : Int) (item : Item) : Decidable (Leaves spare upto item) :=
  inferInstanceAs (Decidable (_ ≤ _))

instance (c : CKMSQuantiles) : Decidable (Room c) :=
  have : Decidable (Ranked (Leaves c.buffer_.length) 0 c.sample_) :=
    decidableEverywhere _ _ _ _ _
  decidable_of_iff (_ ∧ _ ∧ _)
    ⟨fun h => ⟨h.1, h.2.1, h.2.2⟩, fun h => ⟨h.count, h.ranks, h.buffered⟩⟩

/-- A call that flushes has room for it. -/
def CallRoom (c : CKMSQuantiles) : Call → Prop
  | .insert value => (c.push value).buffer_.length = bufferCapacity → Room (c.push value)
  | .get _ => Room c
  | .reset => True

/-- There is room in front of every call of a run. -/
def RunRoom : CKMSQuantiles → List Call → Prop
  | _, [] => True
  | c, call :: calls => CallRoom c call ∧ RunRoom (step c call) calls

instance decidableCallRoom (c : CKMSQuantiles) : ∀ call, Decidable (CallRoom c call)
  | .insert value =>
    inferInstanceAs (Decidable
      ((c.push value).buffer_.length = bufferCapacity → Room (c.push value)))
  | .get _ => inferInstanceAs (Decidable (Room c))
  | .reset => isTrue trivial

instance decidableRunRoom : ∀ c calls, Decidable (RunRoom c calls)
  | _, [] => isTrue trivial
  | c, call :: calls =>
    have := decidableRunRoom (step c call) calls
    inferInstanceAs (Decidable (_ ∧ _))

def InUnit (q : Double) : Prop := ∃ x : ℚ, 0 ≤ x ∧ x ≤ 1 ∧ q = .ofRat x

section Flush

variable {quantiles : List Quantile} {c : CKMSQuantiles}

theorem Checked.insertDelta_inRange (hfits : ErrorFits quantiles) (hq : c.quantiles_ = quantiles)
    (hsize : (c.sample_.length : Int) + 2 ≤ intMax) (value : Number) :
    Checked.insertDelta c value = some (c.insertDelta value) := by
  by_cases hinside : 0 < c.insertIndex value ∧ c.insertIndex value < c.sample_.length
  · obtain ⟨e, he, hlo, hhi⟩ := hfits.floor (c.insertIndex value + 1) c.sample_.length
      (by omega) (by omega)
    rw [← hq] at he
    have hmin := intMin_neg
    have hindex : int (c.insertIndex value) = some (c.insertIndex value : Int) :=
      int_eq_some (by omega) (by omega)
    have hrank : int (c.insertIndex value + 1) = some (c.insertIndex value + 1 : Int) :=
      int_eq_some (by omega) (by omega)
    have herror : intOfDouble (.ofRat e) = some e := by
      show int (Double.ofRat e).toInt = some e
      rw [Double.toInt_ofRat_intCast]
      exact int_eq_some (by omega) (by omega)
    have hdelta : int (e + 1) = some (e + 1) := int_eq_some (by omega) (by omega)
    have hplain : c.insertDelta value = e + 1 := by
      rw [CKMSQuantiles.insertDelta, if_pos hinside, he, Double.toInt_ofRat_intCast]
    rw [hplain]
    refine (if_pos hinside).trans ?_
    rw [hindex, Option.bind_eq_bind, Option.bind_some, hrank, Option.bind_some, he, herror,
      Option.bind_some, hdelta]
  · rw [CKMSQuantiles.insertDelta, if_neg hinside]
    exact if_neg hinside

/-- A round takes the place of one of the values that are still to come. -/
theorem insertValue_leaves (hfits : ErrorFits quantiles) (h : Weighed quantiles c) {spare : Int}
    (hranks : Ranked (Leaves (spare + 1)) 0 c.sample_)
    (hroom : (c.count_ + 1 : Int) + (c.sample_.length + 2) + spare ≤ intMax) (value : Number) :
    Ranked (Leaves spare) 0 (c.insertValue value).sample_ := by
  have hweight := h.weight
  have hdelta := (insertDelta_bounds hfits h.quantiles value).2
  have hbehind : ((c.sample_.drop (c.insertIndex value)).length : Int) ≤
      total Item.g (c.sample_.drop (c.insertIndex value)) :=
    length_le_total fun item hitem => (h.items item (List.mem_of_mem_drop hitem)).1
  rw [← List.take_append_drop (c.insertIndex value) c.sample_] at hranks hweight
  rw [total_append] at hweight
  obtain ⟨hbefore, hafter⟩ := ranked_append.mp hranks
  rw [insertValue_sample, ranked_append]
  refine ⟨hbefore.imp fun item _ upto hitem => ?_, ?_, hafter.succ fun item _ upto hitem => ?_⟩
  · unfold Leaves at hitem ⊢
    omega
  · show _ + 1 + c.insertDelta value + spare ≤ intMax
    omega
  · unfold Leaves at hitem ⊢
    omega

theorem Checked.foldlM_insertValue_inRange (hfits : ErrorFits quantiles) (values : List Number) :
    ∀ {c : CKMSQuantiles}, Weighed quantiles c → Ranked (Leaves values.length) 0 c.sample_ →
      (c.count_ + values.length : Int) + (c.sample_.length + values.length + 1) ≤ intMax →
      values.foldlM Checked.insertValue c = some (values.foldl CKMSQuantiles.insertValue c) ∧
        Ranked (Leaves 0) 0 (values.foldl CKMSQuantiles.insertValue c).sample_ := by
  induction values with
  | nil => exact fun _ hranks _ => ⟨rfl, hranks⟩
  | cons value values ih =>
      intro c h hranks hroom
      have hcons : ((value :: values).length : Int) = values.length + 1 := rfl
      rw [hcons] at hranks hroom
      have hlength : (c.insertValue value).sample_.length = c.sample_.length + 1 :=
        (insertValue_perm c value).length_eq
      have hround : Checked.insertValue c value = some (c.insertValue value) := by
        rw [Checked.insertValue, insertDelta_inRange hfits h.quantiles (by omega)]
        rfl
      have hleaves := insertValue_leaves hfits h hranks (by omega) value
      have hcount : (c.insertValue value).count_ = c.count_ + 1 := rfl
      have hrest := ih (insertValue_weighed hfits h value) hleaves (by
        rw [hlength, hcount]
        push_cast
        omega)
      rw [List.foldlM_cons, hround]
      exact hrest

theorem Checked.insertBatch_inRange (hfits : ErrorFits quantiles) (h : Weighed quantiles c)
    (hroom : Room c) :
    Checked.insertBatch c = some c.insertBatch ∧ Ranked (Leaves 0) 0 c.insertBatch.sample_ := by
  have hlength := (List.perm_insertionSort (· ≤ ·) c.buffer_).length_eq
  obtain ⟨quantiles', count, sample, buffer⟩ := c
  obtain ⟨-, hranks, hbuffered⟩ := hroom
  unfold Checked.insertBatch CKMSQuantiles.insertBatch
  simp only at hlength hranks hbuffered ⊢
  cases hsorted : buffer.insertionSort (· ≤ ·) with
  | nil =>
      rw [hsorted] at hlength
      rw [← hlength] at hranks
      exact ⟨rfl, hranks⟩
  | cons front rest =>
      rw [hsorted] at hlength
      have hbuffered := hbuffered (List.ne_nil_of_length_pos (by rw [← hlength]; simp))
      rw [← hlength] at hranks hbuffered
      cases sample with
      | nil =>
          have hfirst : Ranked (Leaves rest.length) 0 [⟨front, 1, 0⟩] := by
            refine ⟨?_, trivial⟩
            show (0 : Int) + 1 + 0 + rest.length ≤ intMax
            simp only [List.length_cons] at hbuffered
            push_cast at hbuffered
            omega
          obtain ⟨heq, hdone⟩ := foldlM_insertValue_inRange hfits rest
            (weighed_singleton h rfl front) hfirst (by
              simp only [List.length_cons, List.length_nil] at hbuffered ⊢
              push_cast at hbuffered ⊢
              omega)
          refine ⟨?_, hdone⟩
          simp only [heq]
          rfl
      | cons item items =>
          obtain ⟨heq, hdone⟩ := foldlM_insertValue_inRange hfits (front :: rest) h hranks hbuffered
          refine ⟨?_, hdone⟩
          simp only [heq]
          rfl

/-! ## The loops over the samples -/

/-- A part of a sample, behind weights that add up to `before`, whose ranks are in range. -/
structure InRange (before : Int) (sample : List Item) : Prop where
  before_nonneg : 0 ≤ before
  items : ∀ item ∈ sample, 1 ≤ item.g ∧ intMin ≤ item.delta
  count : before + total Item.g sample ≤ intMax
  ranks : Ranked (Leaves 0) before sample

namespace InRange

variable {before : Int} {a b : Item} {rest : List Item}

theorem tail (h : InRange before (a :: rest)) : InRange (before + a.g) rest where
  before_nonneg := by
    have hnonneg := h.before_nonneg
    have ha := (h.items a List.mem_cons_self).1
    omega
  items item hitem := h.items item (List.mem_cons_of_mem a hitem)
  count := by
    have hcount := h.count
    rw [total_cons] at hcount
    omega
  ranks := h.ranks.2

/-- A merged sample stands for both, so the weights up to it are those up to the later one. -/
theorem merge (h : InRange before (a :: b :: rest)) :
    InRange before ({ b with g := a.g + b.g } :: rest) where
  before_nonneg := h.before_nonneg
  items := by
    obtain ⟨ha, hb, hrest⟩ := by simpa only [List.forall_mem_cons] using h.items
    refine List.forall_mem_cons.mpr ⟨⟨?_, hb.2⟩, hrest⟩
    show 1 ≤ a.g + b.g
    omega
  count := by
    have hcount := h.count
    rw [total_cons, total_cons] at hcount
    rw [total_cons]
    show before + (a.g + b.g + _) ≤ intMax
    omega
  ranks := by
    obtain ⟨-, hb, hrest⟩ := h.ranks
    rw [add_assoc] at hb hrest
    exact ⟨hb, hrest⟩

theorem total_nonneg (h : InRange before rest) : 0 ≤ total Item.g rest :=
  (Int.natCast_nonneg _).trans (length_le_total fun item hitem => (h.items item hitem).1)

/-- The weights of two neighbours and the later one's delta are part of its recorded upper rank. -/
theorem neighbours (h : InRange before (a :: b :: rest)) :
    int (a.g + b.g) = some (a.g + b.g) ∧
      int (a.g + b.g + b.delta) = some (a.g + b.g + b.delta) ∧
      int (before + a.g) = some (before + a.g) ∧
      int (before + a.g + b.g) = some (before + a.g + b.g) ∧
      int (before + a.g + b.g + b.delta) = some (before + a.g + b.g + b.delta) := by
  have hmin := intMin_neg
  have hbefore := h.before_nonneg
  have hbehind := h.tail.tail.total_nonneg
  have hcount := h.count
  obtain ⟨ha, hb, -⟩ := by simpa only [List.forall_mem_cons] using h.items
  have hleaves : before + a.g + b.g + b.delta + 0 ≤ intMax := h.ranks.2.1
  rw [total_cons, total_cons] at hcount
  refine ⟨?_, ?_, ?_, ?_, ?_⟩ <;> exact int_eq_some (by omega) (by omega)

end InRange

theorem Weighed.inRange (h : Weighed quantiles c) (hcount : (c.count_ : Int) ≤ intMax)
    (hranks : Ranked (Leaves 0) 0 c.sample_) : InRange 0 c.sample_ where
  before_nonneg := le_rfl
  items := h.items
  count := by
    rw [h.weight, zero_add]
    exact hcount
  ranks := hranks

theorem Checked.compressLoop_inRange (quantiles : List Quantile) (rest : List Item) :
    ∀ (index size : Nat) (last : Item) {before : Int}, (index : Int) + rest.length ≤ intMax →
      InRange before (last :: rest) →
      Checked.compressLoop quantiles index size last rest =
        some (CKMSQuantiles.compressLoop quantiles index size last rest) := by
  induction rest with
  | nil => intro index size last before _ _; rfl
  | cons current rest ih =>
      intro index size last before hindex h
      obtain ⟨hweight, hupper, -, -, -⟩ := h.neighbours
      have hmin := intMin_neg
      rw [List.length_cons] at hindex
      push_cast at hindex
      have hlogical : int index = some (index : Int) := int_eq_some (by omega) (by omega)
      rw [Checked.compressLoop, CKMSQuantiles.compressLoop, hlogical, Option.bind_eq_bind,
        Option.bind_some, hweight, Option.bind_some, hupper, Option.bind_some]
      split
      · rw [Option.bind_some]
        exact ih index (size - 1) _ (by omega) h.merge
      · rw [ih (index + 1) size current (by push_cast; omega) h.tail]
        rfl

theorem Checked.compress_inRange (h : Weighed quantiles c) (hcount : (c.count_ : Int) ≤ intMax)
    (hranks : Ranked (Leaves 0) 0 c.sample_) : Checked.compress c = some c.compress := by
  have hlength := length_le_count h
  have hrange := h.inRange hcount hranks
  obtain ⟨quantiles', count, sample, buffer⟩ := c
  unfold Checked.compress CKMSQuantiles.compress
  split
  · rfl
  · cases sample with
    | nil => rfl
    | cons first rest =>
        have hsize : (1 : Nat) + (rest.length : Int) ≤ intMax := by
          have hlength : ((rest.length + 1 : Nat) : Int) ≤ count := hlength
          have hcount : (count : Int) ≤ intMax := hcount
          omega
        have hloop := compressLoop_inRange quantiles' rest 1 (rest.length + 1) first hsize hrange
        simp only [hloop]
        rfl

theorem Checked.scan_inRange (bound : Double) (rest : List Item) :
    ∀ {rankMin : Int} (prev : Item), InRange rankMin (prev :: rest) →
      Checked.scan bound rankMin prev rest =
        some (CKMSQuantiles.scan bound rankMin prev rest) := by
  induction rest with
  | nil => intro rankMin prev _; rfl
  | cons cur rest ih =>
      intro rankMin prev h
      obtain ⟨-, -, hrank, hlower, hupper⟩ := h.neighbours
      rw [Checked.scan, CKMSQuantiles.scan, hrank, Option.bind_eq_bind, Option.bind_some, hlower,
        Option.bind_some, hupper, Option.bind_some, ih cur h.tail]
      split <;> rfl

theorem Checked.select_inRange (h : Weighed quantiles c) (hcount : (c.count_ : Int) ≤ intMax)
    (hranks : Ranked (Leaves 0) 0 c.sample_) {q : Double} (hq : InUnit q) :
    Checked.select c q = some (c.select q) := by
  obtain ⟨x, hx, hx', rfl⟩ := hq
  have hmin := intMin_neg
  -- The desired rank is at most the number of values.
  have hnonneg : (0 : ℚ) ≤ x * c.count_ := mul_nonneg hx (Nat.cast_nonneg _)
  have hle : ⌊x * c.count_⌋ ≤ (c.count_ : Int) := by
    refine Int.floor_le_iff.mpr (lt_of_le_of_lt (mul_le_of_le_one_left (Nat.cast_nonneg _) hx') ?_)
    exact_mod_cast Nat.lt_succ_self c.count_
  have hdesired : intOfDouble (.ofRat x * (c.count_ : Double)) =
      some (c.desiredRank (.ofRat x)) := by
    show int (Double.ofRat (x * c.count_)).toInt = some (Double.ofRat (x * c.count_)).toInt
    rw [Double.toInt_ofRat_of_nonneg hnonneg]
    have hfloor := Int.floor_nonneg.mpr hnonneg
    exact int_eq_some (by omega) (by omega)
  have hrange := h.inRange hcount hranks
  obtain ⟨quantiles', count, sample, buffer⟩ := c
  cases sample with
  | nil => rfl
  | cons first rest =>
      have hscan := fun bound => scan_inRange bound rest first hrange
      simp only [Checked.select, CKMSQuantiles.select, hdesired, Option.bind_eq_bind,
        Option.bind_some, hscan]
      rfl

/-! ## Calls and runs -/

/-- A flush with room for it is that of unbounded ranks, and leaves a sample in range. -/
theorem Checked.flush_inRange (hfits : ErrorFits quantiles) (h : Weighed quantiles c)
    (hroom : Room c) :
    Checked.flush c = some c.flush ∧ (c.flush.count_ : Int) ≤ intMax ∧
      Ranked (Leaves 0) 0 c.flush.sample_ := by
  obtain ⟨hbatch, hranks⟩ := insertBatch_inRange hfits h hroom
  obtain ⟨hw, hcount⟩ := insertBatch_weighed hfits h
  obtain ⟨-, hkept⟩ := compress_weighed hw
  have hle : (c.insertBatch.count_ : Int) ≤ intMax := by
    rw [hcount]
    exact_mod_cast hroom.count
  refine ⟨?_, ?_, compress_ranked (fun _ _ _ hitem => hitem) hranks⟩
  · rw [Checked.flush, hbatch]
    exact compress_inRange hw hle hranks
  · show (c.insertBatch.compress.count_ : Int) ≤ intMax
    rw [hkept]
    exact hle

theorem Checked.step_inRange (hfits : ErrorFits quantiles) (h : Weighed quantiles c) (call : Call)
    (hq : ∀ q, call = .get q → InUnit q) (hroom : CallRoom c call) :
    Checked.step c call = some (answers c [call], CKMSQuantiles.step c call) := by
  cases call with
  | insert value =>
      have hinsert : Checked.insert c value = some (c.insert value) := by
        obtain ⟨hfull, hinsert⟩ | ⟨hroom', hinsert⟩ := c.insert_cases value
        · rw [hinsert, Checked.insert, if_pos hfull]
          exact (flush_inRange hfits (push_weighed h value) (hroom hfull)).1
        · rw [hinsert, Checked.insert, if_neg hroom']
      rw [Checked.step, hinsert]
      rfl
  | get q =>
      obtain ⟨hflush, hcount, hranks⟩ := flush_inRange hfits h hroom
      have hselect := select_inRange (flush_weighed hfits h).1 hcount hranks (hq q rfl)
      have hget : Checked.get c q = some (c.get q) := by
        rw [Checked.get, hflush, Option.bind_eq_bind, Option.bind_some, hselect]
        rfl
      rw [Checked.step, hget]
      rfl
  | reset => rfl

theorem Checked.run_eq_some (hfits : ErrorFits quantiles) (calls : List Call) :
    ∀ {c : CKMSQuantiles}, Weighed quantiles c → (∀ q, .get q ∈ calls → InUnit q) →
      RunRoom c calls →
      Checked.run c calls = some (answers c calls, calls.foldl CKMSQuantiles.step c) := by
  induction calls with
  | nil => intro c _ _ _; rfl
  | cons call calls ih =>
      intro c h hq hroom
      have hfirst := step_inRange hfits h call
        (fun q hcall => hq q (hcall ▸ List.mem_cons_self)) hroom.1
      have hrest := ih (step_weighed hfits h call) (fun q hmem => hq q (List.mem_cons_of_mem _ hmem))
        hroom.2
      rw [answers_cons, Checked.run, hfirst]
      show (Checked.run (CKMSQuantiles.step c call) calls).bind _ = _
      rw [hrest]
      rfl

/-! ## Runs that always have room -/

/-- Samples of few values are in range with their deltas, wherever they stand. -/
theorem ranked_leaves {xs : List Item} {spare bound : Int} : ∀ {before : Int},
    (∀ item ∈ xs, 1 ≤ item.g ∧ bound + item.delta + spare ≤ intMax) →
    before + total Item.g xs ≤ bound → Ranked (Leaves spare) before xs := by
  induction xs with
  | nil => intro before _ _; trivial
  | cons x xs ih =>
      intro before hitems htotal
      obtain ⟨hx, hxs⟩ := List.forall_mem_cons.mp hitems
      rw [total_cons] at htotal
      have hnonneg := (Int.natCast_nonneg xs.length).trans
        (length_le_total fun item hitem => (hxs item hitem).1)
      refine ⟨?_, ih hxs (by omega)⟩
      show before + x.g + x.delta + spare ≤ intMax
      omega

theorem Weighed.room (h : Weighed quantiles c)
    (hfew : 2 * (c.count_ + c.buffer_.length : Int) + 1 ≤ intMax) : Room c where
  count := by omega
  ranks := by
    have hitems : ∀ item ∈ c.sample_, 1 ≤ item.g ∧
        (c.count_ : Int) + item.delta + c.buffer_.length ≤ intMax := fun item hitem => by
      have hdelta := h.delta_le item hitem
      exact ⟨(h.items item hitem).1, by omega⟩
    exact ranked_leaves hitems (by rw [h.weight, zero_add])
  buffered _ := by
    have hlength := length_le_count h
    omega

/-- A run of few calls has room in front of each of them, whatever the targets. -/
theorem runRoom_of_few (hfits : ErrorFits quantiles) (calls : List Call) :
    ∀ {c : CKMSQuantiles} {log : List Number}, Weighed quantiles c →
      c.count_ + c.buffer_.length = log.length →
      2 * (log.length + calls.length : Int) + 1 ≤ intMax → RunRoom c calls := by
  induction calls with
  | nil => intro c log _ _ _; trivial
  | cons call calls ih =>
      intro c log h hlog hfew
      rw [List.length_cons] at hfew
      push_cast at hfew
      have hcount : (c.count_ : Int) + c.buffer_.length = log.length := by exact_mod_cast hlog
      refine ⟨?_, ih (step_weighed hfits h call) (step_count hfits h hlog call) ?_⟩
      · cases call with
        | insert value =>
            intro _
            refine (push_weighed h value).room ?_
            simp only [push, List.length_append, List.length_singleton]
            push_cast
            omega
        | get q => exact h.room (by omega)
        | reset => trivial
      · cases call with
        | insert value =>
            simp only [logStep, List.length_append, List.length_singleton]
            push_cast
            omega
        | get q =>
            simp only [logStep]
            omega
        | reset =>
            simp only [logStep, List.length_nil]
            push_cast
            omega

/-- Up to about half of the largest `int`, every run is that of unbounded ranks. -/
theorem Checked.run_of_few (hfits : ErrorFits quantiles) {calls : List Call}
    (hq : ∀ q, .get q ∈ calls → InUnit q) (hfew : 2 * (calls.length : Int) + 1 ≤ intMax) :
    Checked.run (new quantiles) calls =
      some (answers (new quantiles) calls, CKMSQuantiles.run quantiles calls) := by
  have hlog : (new quantiles).count_ + (new quantiles).buffer_.length = ([] : List Number).length :=
    rfl
  refine run_eq_some hfits calls (new_weighed quantiles) hq
    (runRoom_of_few hfits calls (new_weighed quantiles) hlog ?_)
  rw [List.length_nil]
  push_cast
  omega

end Flush

/-! ## Where there is none -/

/-- With more values than the largest `int`, the desired rank of the largest quantile has no
value. -/
theorem Checked.select_eq_none {quantiles : List Quantile} {c : CKMSQuantiles}
    (h : Weighed quantiles c) (hcount : intMax < (c.count_ : Int)) : Checked.select c 1 = none := by
  have hdesired : intOfDouble (1 * (c.count_ : Double)) = none := by
    show int (Double.ofRat ((1 : ℕ) * (c.count_ : ℚ))).toInt = none
    rw [Nat.cast_one, one_mul, ← Int.cast_natCast, Double.toInt_ofRat_intCast]
    exact within_eq_none hcount
  have hempty := h.count_eq_zero
  obtain ⟨quantiles', count, sample, buffer⟩ := c
  cases sample with
  | nil =>
      have hzero : count = 0 := hempty rfl
      rw [hzero] at hcount
      exact absurd hcount (by norm_num [intMax])
  | cons first rest => simp only [Checked.select, hdesired, Option.bind_eq_bind, Option.bind_none]

theorem Checked.get_eq_none {quantiles : List Quantile} (hfits : ErrorFits quantiles)
    {c : CKMSQuantiles} (h : Weighed quantiles c)
    (hcount : intMax < (c.count_ + c.buffer_.length : Nat)) : Checked.get c 1 = none := by
  obtain ⟨hw, hflushed⟩ := flush_weighed hfits h
  cases hflush : Checked.flush c with
  | none => rw [Checked.get, hflush]; rfl
  | some c' =>
      obtain rfl := flush_agrees c c' hflush
      have hselect := select_eq_none hw (by rw [hflushed]; exact hcount)
      rw [Checked.get, hflush, Option.bind_eq_bind, Option.bind_some, hselect]
      rfl

theorem Checked.run_append (calls calls' : List Call) : ∀ c : CKMSQuantiles,
    Checked.run c (calls ++ calls') = (Checked.run c calls).bind fun r =>
      (Checked.run r.2 calls').bind fun r' => some (r.1 ++ r'.1, r'.2) := by
  induction calls with
  | nil =>
      intro c
      show Checked.run c calls' = (Checked.run c calls').bind fun r' => some r'
      cases Checked.run c calls' <;> rfl
  | cons call calls ih =>
      intro c
      rw [List.cons_append, Checked.run, Checked.run]
      cases Checked.step c call with
      | none => rfl
      | some first =>
          show (Checked.run first.2 (calls ++ calls')).bind _ =
            ((Checked.run first.2 calls).bind fun r => some (first.1 ++ r.1, r.2)).bind _
          rw [ih]
          cases Checked.run first.2 calls with
          | none => rfl
          | some r =>
              show ((Checked.run r.2 calls').bind _).bind _ = (Checked.run r.2 calls').bind _
              cases Checked.run r.2 calls' with
              | none => rfl
              | some r' => simp [List.append_assoc]

/-- A run that has inserted more values than the largest `int` leaves the range with a query for the
largest quantile. -/
theorem Checked.run_eq_none {quantiles : List Quantile} (hfits : ErrorFits quantiles)
    (calls : List Call) (hmany : intMax < (inserted calls).length) :
    Checked.run (new quantiles) (calls ++ [.get 1]) = none := by
  obtain ⟨hw, hcount⟩ := run_weighed hfits calls
  rw [Checked.run_append]
  cases hrun : Checked.run (new quantiles) calls with
  | none => rfl
  | some r =>
      obtain rfl := Checked.run_agrees calls _ r hrun
      have hget := Checked.get_eq_none hfits hw (by rw [hcount]; exact hmany)
      show ((Checked.get (CKMSQuantiles.run quantiles calls) 1 >>= _) >>= _ : Option _).bind _ = none
      rw [hget]
      rfl

theorem inserted_get (calls : List Call) (q : Double) :
    inserted (calls ++ [.get q]) = inserted calls := by
  rw [inserted, List.foldl_append]
  rfl

theorem inserted_replicate (n : Nat) (value : Number) :
    (inserted (List.replicate n (.insert value))).length = n := by
  have fold : ∀ (n : Nat) (log : List Number),
      ((List.replicate n (Call.insert value)).foldl logStep log).length = log.length + n := by
    intro n
    induction n with
    | zero => exact fun log => rfl
    | succ n ih =>
        intro log
        rw [List.replicate_succ, List.foldl_cons, ih, logStep, List.length_append,
          List.length_singleton]
        omega
  rw [inserted, fold, List.length_nil, Nat.zero_add]

/-- In a run that has room in front of every flush, every `int` is in range, so its queries return
what they return with unbounded ranks. A run that has inserted more values than the largest `int`
leaves the range with a query for the largest quantile. -/
theorem run_inRange {quantiles : List Quantile} (hfits : ErrorFits quantiles) (calls : List Call) :
    ((∀ q, .get q ∈ calls → InUnit q) → RunRoom (new quantiles) calls →
      Checked.run (new quantiles) calls =
        some (answers (new quantiles) calls, run quantiles calls)) ∧
    (intMax < (inserted calls).length →
      Checked.run (new quantiles) (calls ++ [.get 1]) = none) :=
  ⟨fun hq hroom => Checked.run_eq_some hfits calls (new_weighed quantiles) hq hroom,
    Checked.run_eq_none hfits calls⟩

/-- Three values and two queries have room; one value more than the largest `int` has not. -/
theorem run_inRange_of_three :
    Checked.run (new ([fourFifths].map Target.toQuantile))
        (ascending 2 ++ [.get (.ofRat (1 / 2)), .insert (.fin 1), .get 1]) =
      some ([.num (.fin 1), .num (.fin 2)], run ([fourFifths].map Target.toQuantile)
        (ascending 2 ++ [.get (.ofRat (1 / 2)), .insert (.fin 1), .get 1])) ∧
    Checked.run (new ([fourFifths].map Target.toQuantile))
      (List.replicate (2 ^ 31) (.insert (.fin 0)) ++ [.get 1]) = none := by
  have hfits := errorFits_targets [fourFifths]
  constructor
  · refine ((run_inRange hfits _).1 ?_ (by decide +kernel)).trans (by decide +kernel)
    intro q hmem
    have hq : q = .ofRat (1 / 2) ∨ q = 1 := by simpa [ascending] using hmem
    rcases hq with rfl | rfl
    · exact ⟨1 / 2, by norm_num, by norm_num, rfl⟩
    · exact ⟨1, by norm_num, le_rfl, rfl⟩
  · exact (run_inRange hfits _).2 (by rw [inserted_replicate]; norm_num [intMax])

/-- After `2 ^ 31` observations the desired rank of the quantile one is out of range. -/
theorem run_not_always_inRange :
    ¬ ∀ (targets : List Target) (calls : List Call), (∀ q, .get q ∈ calls → InUnit q) →
      (inserted calls).length < 2 ^ 64 →
      Checked.run (new (targets.map Target.toQuantile)) calls =
        some (answers (new (targets.map Target.toQuantile)) calls,
          run (targets.map Target.toQuantile) calls) := by
  intro h
  have hq : ∀ q, .get q ∈ List.replicate (2 ^ 31) (Call.insert (.fin 0)) ++ [.get 1] →
      InUnit q := by
    intro q hmem
    rcases List.mem_append.mp hmem with hinsert | hget
    · cases List.eq_of_mem_replicate hinsert
    · cases List.mem_singleton.mp hget
      exact ⟨1, by norm_num, le_rfl, rfl⟩
  have hlength : (inserted
      (List.replicate (2 ^ 31) (.insert (.fin 0)) ++ [.get 1])).length = 2 ^ 31 := by
    rw [inserted_get, inserted_replicate]
  have hrun := h [fourFifths] (List.replicate (2 ^ 31) (.insert (.fin 0)) ++ [.get 1]) hq
    (by rw [hlength]; norm_num)
  have hnone := Checked.run_eq_none (errorFits_targets [fourFifths])
    (List.replicate (2 ^ 31) (.insert (.fin 0))) (by rw [inserted_replicate]; norm_num [intMax])
  cases hnone.symm.trans hrun

end PrometheusCpp.CKMSQuantiles
