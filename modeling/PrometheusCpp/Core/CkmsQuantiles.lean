/-
# PrometheusCpp.Core.CkmsQuantiles -- the quantile sketch of `ckms_quantiles.cc`

A sketch keeps a sorted list of samples instead of all observations. A sample stands for `g`
observations (`g - 1` smaller values merged into it and itself) and `delta` records how uncertain
its rank was when it came in. Observations are buffered, and a full buffer or a query flushes them:
`insertBatch` sorts them in, `compress` merges neighbours whose joint weight the targets allow.

Values are numbers other than NaN; ranks, weights and deltas are unbounded integers, and the error
function is computed in exact arithmetic.
-/
import PrometheusCpp.Lib.BinarySearch
import PrometheusCpp.Lib.ExactDouble
import Mathlib.Data.List.Sort
import Mathlib.Tactic.Linarith
import Mathlib.Tactic.FieldSimp
import Mathlib.Tactic.Ring

namespace PrometheusCpp

open BinarySearch

/-! ## The data -/

namespace CKMSQuantiles

structure Quantile where
  quantile : Double
  error : Double
  u : Double
  v : Double
  deriving DecidableEq

/-- The constructor `Quantile(quantile, error)`. -/
def Quantile.new (quantile error : Double) : Quantile where
  quantile := quantile
  error := error
  u := 2 * error / (1 - quantile)
  v := 2 * error / quantile

structure Item where
  value : Number
  g : Int
  delta : Int
  deriving DecidableEq

end CKMSQuantiles

open CKMSQuantiles in
/-- `buffer_` holds the first `buffer_count_` entries of the source's array; the rest of the array
is never read. -/
structure CKMSQuantiles where
  quantiles_ : List Quantile
  count_ : Nat := 0
  sample_ : List Item := []
  buffer_ : List Number := []
  deriving DecidableEq

namespace CKMSQuantiles

/-- The size of the source's `std::array`. -/
def bufferCapacity : Nat := 500

def new (quantiles : List Quantile) : CKMSQuantiles := { quantiles_ := quantiles }

/-! ## The error function -/

/-- What one target allows at a rank. The source subtracts in `size_t`; in this branch
`rank <= quantile * size`, so for quantiles up to one the difference is not negative. -/
def quantileError (q : Quantile) (rank : Int) (size : Nat) : Double :=
  if Double.le rank (q.quantile * size) then q.u * ((size : Int) - rank : Int)
  else q.v * rank

def allowableError (quantiles : List Quantile) (rank : Int) (size : Nat) : Double :=
  quantiles.foldl
    (fun minError q =>
      let error := quantileError q rank size
      if error.lt minError then error else minError)
    ((size + 1 : Nat) : Double)

/-! ## Flushing the buffer -/

/-- One round of the loop of `insertBatch`. -/
def insertValue (c : CKMSQuantiles) (value : Number) : CKMSQuantiles :=
  let idx := lowerBound (fun item : Item => decide (item.value < value)) c.sample_
  let delta : Int :=
    if 0 < idx ∧ idx < c.sample_.length then
      (allowableError c.quantiles_ (idx + 1) c.sample_.length).floor.toInt + 1
    else 0
  { c with
    sample_ := c.sample_.take idx ++ ⟨value, 1, delta⟩ :: c.sample_.drop idx
    count_ := c.count_ + 1 }

/-- The Boolean the source returns is not used by its callers. -/
def insertBatch (c : CKMSQuantiles) : CKMSQuantiles :=
  match c.buffer_.insertionSort (· ≤ ·) with
  | [] => c
  | front :: rest =>
    let flushed :=
      match c.sample_ with
      | [] =>
        -- The first value goes into the empty sample without a search.
        rest.foldl insertValue { c with sample_ := [⟨front, 1, 0⟩], count_ := c.count_ + 1 }
      | _ :: _ => (front :: rest).foldl insertValue c
    { flushed with buffer_ := [] }

/-- The loop of `compress`. `last` is `compressed_samples.back()` and `index` the length of
`compressed_samples`; a merge keeps the later sample and adds the earlier one's weight, and makes
the logical size of the sample smaller by one. -/
def compressLoop (quantiles : List Quantile) :
    (index logicalSize : Nat) → (last : Item) → List Item → List Item
  | _, _, last, [] => [last]
  | index, logicalSize, last, current :: rest =>
    if Double.le (last.g + current.g + current.delta : Int)
        (allowableError quantiles index logicalSize) then
      compressLoop quantiles index (logicalSize - 1) { current with g := last.g + current.g } rest
    else
      last :: compressLoop quantiles (index + 1) logicalSize current rest

/-- One pass over the samples, from the first on. -/
def compressSample (quantiles : List Quantile) : List Item → List Item
  | [] => []
  | first :: rest => compressLoop quantiles 1 (rest.length + 1) first rest

/-- A sample of fewer than two items is left alone, which is what the pass does to it anyway. -/
def compress (c : CKMSQuantiles) : CKMSQuantiles :=
  if c.sample_.length < 2 then c
  else { c with sample_ := compressSample c.quantiles_ c.sample_ }

/-- What every query does before it looks at the sample. -/
def flush (c : CKMSQuantiles) : CKMSQuantiles := c.insertBatch.compress

/-! ## The interface -/

def insert (c : CKMSQuantiles) (value : Number) : CKMSQuantiles :=
  let c := { c with buffer_ := c.buffer_ ++ [value] }
  if c.buffer_.length = bufferCapacity then c.insertBatch.compress else c

def reset (c : CKMSQuantiles) : CKMSQuantiles :=
  { c with count_ := 0, sample_ := [], buffer_ := [] }

/-- The scan of `get`: the item before the first one whose recorded upper rank exceeds the bound,
and the last item when there is none. -/
def scan (bound : Double) : (rankMin : Int) → (prev : Item) → List Item → Item
  | _, prev, [] => prev
  | rankMin, prev, cur :: rest =>
    if bound.lt (rankMin + prev.g + cur.g + cur.delta : Int) then prev
    else scan bound (rankMin + prev.g) cur rest

def desiredRank (c : CKMSQuantiles) (q : Double) : Int := (q * (c.count_ : Double)).toInt

def scanBound (c : CKMSQuantiles) (q : Double) : Double :=
  (c.desiredRank q : Double) +
    allowableError c.quantiles_ (c.desiredRank q) c.sample_.length / 2

/-- The part of `get` behind the flush. -/
def select (c : CKMSQuantiles) (q : Double) : Double :=
  match c.sample_ with
  | [] => .nan
  | first :: rest => .num (scan (c.scanBound q) 0 first rest).value

/-- A query flushes, so it returns the new state with the value. -/
def get (c : CKMSQuantiles) (q : Double) : Double × CKMSQuantiles :=
  (c.flush.select q, c.flush)

/-! ## Runs -/

inductive Call where
  | insert (value : Number)
  | get (q : Double)
  | reset
  deriving DecidableEq

def step (c : CKMSQuantiles) : Call → CKMSQuantiles
  | .insert value => c.insert value
  | .get q => (c.get q).2
  | .reset => c.reset

def run (quantiles : List Quantile) (calls : List Call) : CKMSQuantiles :=
  calls.foldl step (new quantiles)

def logStep (log : List Number) : Call → List Number
  | .insert value => log ++ [value]
  | .get _ => log
  | .reset => []

/-- The values inserted since the last reset, in the order of the calls. -/
def inserted (calls : List Call) : List Number := calls.foldl logStep []

/-! ## Targets, and the error function in rational arithmetic -/

/-- A target a summary can be given: a quantile strictly between zero and one and a tolerated
error. -/
structure Target where
  quantile : ℚ
  error : ℚ
  quantile_pos : 0 < quantile
  quantile_lt_one : quantile < 1
  error_nonneg : 0 ≤ error

def Target.toQuantile (t : Target) : Quantile := .new (.ofRat t.quantile) (.ofRat t.error)

/-- `2 eps (n - r) / (1 - q)` up to rank `q n`, and `2 eps r / q` beyond. -/
def Target.allowance (t : Target) (r n : ℚ) : ℚ :=
  if r ≤ t.quantile * n then 2 * t.error / (1 - t.quantile) * (n - r)
  else 2 * t.error / t.quantile * r

def errorBound (targets : List Target) (r n : ℚ) : ℚ :=
  targets.foldl (fun bound t => min bound (t.allowance r n)) (n + 1)

theorem Target.toQuantile_eq (t : Target) :
    t.toQuantile = { quantile := .ofRat t.quantile, error := .ofRat t.error
                     u := .ofRat (2 * t.error / (1 - t.quantile))
                     v := .ofRat (2 * t.error / t.quantile) } := by
  have hq : t.quantile ≠ 0 := ne_of_gt t.quantile_pos
  have hq' : 1 - t.quantile ≠ 0 := sub_ne_zero.mpr (ne_of_gt t.quantile_lt_one)
  simp [toQuantile, Quantile.new, Double.ofRat_div _ hq, Double.ofRat_div _ hq']

theorem quantileError_toQuantile (t : Target) (rank : Int) (size : Nat) :
    quantileError t.toQuantile rank size = .ofRat (t.allowance rank size) := by
  rw [Target.toQuantile_eq]
  simp only [quantileError, Double.natCast_eq, Double.intCast_eq, Double.ofRat_mul,
    Double.le_ofRat, decide_eq_true_eq, Target.allowance]
  split <;> simp

/-- On real targets the error function of the source is the rational one. -/
theorem allowableError_eq (targets : List Target) (rank : Int) (size : Nat) :
    allowableError (targets.map Target.toQuantile) rank size =
      .ofRat (errorBound targets rank size) := by
  -- The fold over the targets, from any bound on.
  have fold : ∀ (targets : List Target) (bound : ℚ),
      (targets.map Target.toQuantile).foldl
        (fun minError q =>
          let error := quantileError q rank size
          if error.lt minError then error else minError) (Double.ofRat bound)
        = .ofRat (targets.foldl (fun bound t => min bound (t.allowance rank size)) bound) := by
    intro targets
    induction targets with
    | nil => intro bound; rfl
    | cons t targets ih =>
        intro bound
        simp only [List.map_cons, List.foldl_cons, quantileError_toQuantile, Double.lt_ofRat,
          decide_eq_true_eq]
        rw [← ih]
        congr 1
        by_cases hlt : t.allowance rank size < bound
        · rw [if_pos hlt, min_eq_right hlt.le]
        · rw [if_neg hlt, min_eq_left (not_lt.mp hlt)]
  have := fold targets (size + 1)
  simpa [allowableError, errorBound] using this

theorem Target.allowance_nonneg (t : Target) {r n : ℚ} (hr : 0 ≤ r) (hn : 0 ≤ n) :
    0 ≤ t.allowance r n := by
  have he := t.error_nonneg
  have hq := t.quantile_pos
  have hq' : 0 < 1 - t.quantile := sub_pos.mpr t.quantile_lt_one
  unfold allowance
  split
  · rename_i hle
    have hrn : r ≤ n := hle.trans (by nlinarith)
    exact mul_nonneg (by positivity) (sub_nonneg.mpr hrn)
  · positivity

theorem errorBound_nonneg (targets : List Target) {r n : ℚ} (hr : 0 ≤ r) (hn : 0 ≤ n) :
    0 ≤ errorBound targets r n := by
  have fold : ∀ (targets : List Target) (bound : ℚ), 0 ≤ bound →
      0 ≤ targets.foldl (fun bound t => min bound (t.allowance r n)) bound := by
    intro targets
    induction targets with
    | nil => intro bound hb; exact hb
    | cons t targets ih =>
        intro bound hb
        exact ih _ (le_min hb (t.allowance_nonneg hr hn))
  exact fold targets _ (by positivity)

/-- What is at most so much larger for every target is so for their minimum. -/
theorem errorBound_le_add {targets : List Target} {r n r' n' k : ℚ} (hsize : n ≤ n' + k)
    (h : ∀ t ∈ targets, t.allowance r n ≤ t.allowance r' n' + k) :
    errorBound targets r n ≤ errorBound targets r' n' + k := by
  have fold : ∀ (targets : List Target) (bound bound' : ℚ), bound ≤ bound' + k →
      (∀ t ∈ targets, t.allowance r n ≤ t.allowance r' n' + k) →
      targets.foldl (fun bound t => min bound (t.allowance r n)) bound ≤
        targets.foldl (fun bound t => min bound (t.allowance r' n')) bound' + k := by
    intro targets
    induction targets with
    | nil => intro bound bound' hb _; exact hb
    | cons t targets ih =>
        intro bound bound' hb ht
        obtain ⟨hfirst, hrest⟩ := List.forall_mem_cons.mp ht
        refine ih _ _ ?_ hrest
        rw [← min_add_add_right]
        exact min_le_min hb hfirst
  exact fold targets _ _ (by linarith) h

end CKMSQuantiles

end PrometheusCpp
