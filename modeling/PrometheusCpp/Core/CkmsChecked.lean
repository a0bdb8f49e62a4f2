/-
# PrometheusCpp.Core.CkmsChecked -- the sketch with its ranks in 32-bit integers

`count_` is a `size_t`, but ranks, weights and deltas are of type `int`. This module follows the code
with every `int` expression checked against the range of the type. A run that comes to its end has
the answers and the state of the run with unbounded ranks (`Checked.run_agrees`).
-/
import PrometheusCpp.Core.CkmsPasses
import PrometheusCpp.Lib.CheckedInt

namespace PrometheusCpp.CKMSQuantiles

open CheckedInt

/-! ## Expressions of type `int` -/

def intMin : Int := -2147483648

def intMax : Int := 2147483647

/-- An overflow is undefined, and so is a conversion from a double out of range; a conversion from
`size_t` out of range is another value. -/
def int (x : Int) : Option Int := within intMin intMax x

/-- `static_cast<int>` of a double. -/
def intOfDouble : Double → Option Int
  | .num (.fin x) => int (Double.ofRat x).toInt
  | _ => none

/-! ## The code with its ints -/

namespace Checked

def insertDelta (c : CKMSQuantiles) (value : Number) : Option Int :=
  let idx := c.insertIndex value
  if 0 < idx ∧ idx < c.sample_.length then do
    let index ← int idx
    let rank ← int (index + 1)
    let error ← intOfDouble (allowableError c.quantiles_ rank c.sample_.length).floor
    int (error + 1)
  else some 0

def insertValue (c : CKMSQuantiles) (value : Number) : Option CKMSQuantiles := do
  let idx := c.insertIndex value
  let delta ← insertDelta c value
  some { c with
    sample_ := c.sample_.take idx ++ ⟨value, 1, delta⟩ :: c.sample_.drop idx
    count_ := c.count_ + 1 }

def insertBatch (c : CKMSQuantiles) : Option CKMSQuantiles :=
  match c.buffer_.insertionSort (· ≤ ·) with
  | [] => some c
  | front :: rest =>
    let inserted :=
      match c.sample_ with
      | [] => rest.foldlM insertValue { c with sample_ := [⟨front, 1, 0⟩], count_ := c.count_ + 1 }
      | _ :: _ => (front :: rest).foldlM insertValue c
    do
      let flushed ← inserted
      some { flushed with buffer_ := [] }

def compressLoop (quantiles : List Quantile) :
    (index logicalSize : Nat) → (last : Item) → List Item → Option (List Item)
  | _, _, last, [] => some [last]
  | index, logicalSize, last, current :: rest => do
    let logical_index ← int index
    let weight ← int (last.g + current.g)
    let upper ← int (weight + current.delta)
    if Double.le upper (allowableError quantiles logical_index logicalSize) then
      let merged_g ← int (last.g + current.g)
      compressLoop quantiles index (logicalSize - 1) { current with g := merged_g } rest
    else
      let behind ← compressLoop quantiles (index + 1) logicalSize current rest
      some (last :: behind)

def compress (c : CKMSQuantiles) : Option CKMSQuantiles :=
  if c.sample_.length < 2 then some c
  else
    match c.sample_ with
    | [] => some c
    | first :: rest => do
      let sample ← compressLoop c.quantiles_ 1 (rest.length + 1) first rest
      some { c with sample_ := sample }

def flush (c : CKMSQuantiles) : Option CKMSQuantiles := insertBatch c >>= compress

def insert (c : CKMSQuantiles) (value : Number) : Option CKMSQuantiles :=
  if (c.push value).buffer_.length = bufferCapacity then flush (c.push value)
  else some (c.push value)

def scan (bound : Double) : (rankMin : Int) → (prev : Item) → List Item → Option Item
  | _, prev, [] => some prev
  | rankMin, prev, cur :: rest => do
    let rankMin ← int (rankMin + prev.g)
    let rank ← int (rankMin + cur.g)
    let upper ← int (rank + cur.delta)
    if bound.lt upper then some prev else scan bound rankMin cur rest

def select (c : CKMSQuantiles) (q : Double) : Option Double :=
  match c.sample_ with
  | [] => some .nan
  | first :: rest => do
    let desired ← intOfDouble (q * (c.count_ : Double))
    let bound := (desired : Double) + allowableError c.quantiles_ desired c.sample_.length / 2
    let item ← scan bound 0 first rest
    some (.num item.value)

def get (c : CKMSQuantiles) (q : Double) : Option (Double × CKMSQuantiles) := do
  let c ← flush c
  let value ← select c q
  some (value, c)

/-- A call, with what a query returns. -/
def step (c : CKMSQuantiles) : Call → Option (List Double × CKMSQuantiles)
  | .insert value => do
    let c ← insert c value
    some ([], c)
  | .get q => do
    let (value, c) ← get c q
    some ([value], c)
  | .reset => some ([], c.reset)

/-- A run, with what its queries return. -/
def run (c : CKMSQuantiles) : List Call → Option (List Double × CKMSQuantiles)
  | [] => some ([], c)
  | call :: calls => do
    let (first, c) ← step c call
    let (rest, c) ← run c calls
    some (first ++ rest, c)

end Checked

/-- What the queries of a run return. -/
def answers (c : CKMSQuantiles) : List Call → List Double
  | [] => []
  | .get q :: calls => (c.get q).1 :: answers (step c (.get q)) calls
  | call :: calls => answers (step c call) calls

/-! ## In range or not, the same computation -/

theorem intMin_neg : intMin < 0 := by norm_num [intMin]

theorem int_eq_some {x : Int} (hlo : intMin ≤ x) (hhi : x ≤ intMax) : int x = some x :=
  within_eq_some hlo hhi

theorem agrees_int (x : Int) : Agrees (int x) x := agrees_within intMin intMax x

theorem agrees_intOfDouble (d : Double) : Agrees (intOfDouble d) d.toInt := by
  unfold intOfDouble
  split
  · exact agrees_int _
  · exact agrees_none _

namespace Checked

theorem insertDelta_agrees (c : CKMSQuantiles) (value : Number) :
    Agrees (insertDelta c value) (c.insertDelta value) := by
  refine Agrees.ite ?_ (agrees_some 0)
  exact (agrees_int _).bind ((agrees_int _).bind ((agrees_intOfDouble _).bind (agrees_int _)))

theorem insertValue_agrees (c : CKMSQuantiles) (value : Number) :
    Agrees (insertValue c value) (c.insertValue value) :=
  (insertDelta_agrees c value).bind (agrees_some _)

theorem insertBatch_agrees (c : CKMSQuantiles) : Agrees (insertBatch c) c.insertBatch := by
  obtain ⟨quantiles, count, sample, buffer⟩ := c
  unfold insertBatch CKMSQuantiles.insertBatch
  cases buffer.insertionSort (· ≤ ·) with
  | nil => exact agrees_some _
  | cons front rest =>
      refine Agrees.bind ?_ (agrees_some _)
      cases sample with
      | nil => exact Agrees.foldlM insertValue_agrees _ _
      | cons item items => exact Agrees.foldlM insertValue_agrees _ _

theorem compressLoop_agrees (quantiles : List Quantile) (rest : List Item) :
    ∀ (index logicalSize : Nat) (last : Item),
      Agrees (compressLoop quantiles index logicalSize last rest)
        (CKMSQuantiles.compressLoop quantiles index logicalSize last rest) := by
  induction rest with
  | nil => exact fun _ _ _ => agrees_some _
  | cons current rest ih =>
      intro index logicalSize last
      unfold compressLoop CKMSQuantiles.compressLoop
      refine (agrees_int _).bind ((agrees_int _).bind ((agrees_int _).bind (Agrees.ite ?_ ?_)))
      · exact (agrees_int _).bind (ih _ _ _)
      · exact (ih _ _ _).bind (agrees_some _)

theorem compress_agrees (c : CKMSQuantiles) : Agrees (compress c) c.compress := by
  obtain ⟨quantiles, count, sample, buffer⟩ := c
  unfold compress CKMSQuantiles.compress
  split
  · exact agrees_some _
  · cases sample with
    | nil => exact agrees_some _
    | cons first rest => exact (compressLoop_agrees _ _ _ _ _).bind (agrees_some _)

theorem flush_agrees (c : CKMSQuantiles) : Agrees (flush c) c.flush :=
  (insertBatch_agrees c).bind (compress_agrees _)

theorem insert_agrees (c : CKMSQuantiles) (value : Number) :
    Agrees (insert c value) (c.insert value) :=
  Agrees.ite (flush_agrees (c.push value)) (agrees_some (c.push value))

theorem scan_agrees (bound : Double) (rest : List Item) : ∀ (rankMin : Int) (prev : Item),
    Agrees (scan bound rankMin prev rest) (CKMSQuantiles.scan bound rankMin prev rest) := by
  induction rest with
  | nil => exact fun _ _ => agrees_some _
  | cons cur rest ih =>
      intro rankMin prev
      unfold scan CKMSQuantiles.scan
      refine (agrees_int _).bind ((agrees_int _).bind ((agrees_int _).bind ?_))
      exact Agrees.ite (agrees_some _) (ih _ _)

theorem select_agrees (c : CKMSQuantiles) (q : Double) : Agrees (select c q) (c.select q) := by
  obtain ⟨quantiles, count, sample, buffer⟩ := c
  cases sample with
  | nil => exact agrees_some _
  | cons first rest =>
      exact (agrees_intOfDouble _).bind ((scan_agrees _ _ _ _).bind (agrees_some _))

theorem get_agrees (c : CKMSQuantiles) (q : Double) : Agrees (get c q) (c.get q) :=
  (flush_agrees c).bind ((select_agrees _ q).bind (agrees_some _))

theorem step_agrees (c : CKMSQuantiles) (call : Call) :
    Agrees (step c call) (answers c [call], CKMSQuantiles.step c call) := by
  cases call with
  | insert value => exact (insert_agrees c value).bind (agrees_some _)
  | get q => exact (get_agrees c q).bind (agrees_some _)
  | reset => exact agrees_some _

end Checked

theorem answers_cons (c : CKMSQuantiles) (call : Call) (calls : List Call) :
    answers c (call :: calls) = answers c [call] ++ answers (step c call) calls := by
  cases call <;> rfl

namespace Checked

/-- As long as every `int` is in range, a run is that of unbounded ranks. -/
theorem run_agrees (calls : List Call) : ∀ c : CKMSQuantiles,
    Agrees (run c calls) (answers c calls, calls.foldl CKMSQuantiles.step c) := by
  induction calls with
  | nil => exact fun c => agrees_some _
  | cons call calls ih =>
      intro c
      rw [answers_cons]
      exact (step_agrees c call).bind ((ih _).bind (agrees_some _))

end Checked

end PrometheusCpp.CKMSQuantiles
