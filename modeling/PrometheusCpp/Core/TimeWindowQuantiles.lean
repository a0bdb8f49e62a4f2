/-
# PrometheusCpp.Core.TimeWindowQuantiles -- the sliding window of `time_window_quantiles.cc`

Every observation goes into all sketches of a ring, and one of them is reset and left behind
whenever a rotation interval has passed. Rotation is lazy: it happens at the next call, and catches
up several intervals at once. The clock readings are arguments, in ticks of `Clock::duration`.

The ring is written for any kind of bucket (`Sketch`), so that the code can be run on sketches that
also log what they were given (`get_reads_window`, `read_windowCalls`).
-/
import PrometheusCpp.Core.CkmsInvariant
import PrometheusCpp.Lib.BucketRing
import Mathlib.Algebra.Order.Interval.Finset.Basic
import Mathlib.Order.Interval.Finset.Nat

namespace PrometheusCpp

open BucketRing

/-- The calls the ring makes on a bucket. -/
class Sketch (σ : Type) where
  insert : Number → σ → σ
  get : Double → σ → Double × σ
  reset : σ → σ

instance : Sketch CKMSQuantiles where
  insert value c := c.insert value
  get q c := c.get q
  reset c := c.reset

/-- A bucket with the list of the values inserted since its last reset. -/
instance {σ : Type} [Sketch σ] : Sketch (σ × List Number) where
  insert value b := (Sketch.insert value b.1, b.2 ++ [value])
  get q b := ((Sketch.get q b.1).1, (Sketch.get q b.1).2, b.2)
  reset b := (Sketch.reset b.1, [])

structure TimeWindowQuantiles (σ : Type) where
  ckms_quantiles_ : List σ
  current_bucket_ : Nat
  last_rotation_ : Int
  rotation_interval_ : Int

namespace TimeWindowQuantiles

variable {σ : Type}

/-- The constructor for `age_buckets >= 1`; `empty` is the sketch it copies into all buckets, `now`
what the clock reads, and the division truncates. -/
def new (empty : σ) (max_age : Int) (age_buckets : Nat) (now : Int) : TimeWindowQuantiles σ where
  ckms_quantiles_ := List.replicate age_buckets empty
  current_bucket_ := 0
  last_rotation_ := now
  rotation_interval_ := max_age.tdiv age_buckets

/-- The sketch `ckms_quantiles_[current_bucket_]`. -/
def currentBucket (w : TimeWindowQuantiles σ) : Option σ :=
  w.ckms_quantiles_[w.current_bucket_]?

section Code

variable [Sketch σ]

/-- The body of the rotation loop. -/
def rotateOnce (w : TimeWindowQuantiles σ) : TimeWindowQuantiles σ :=
  { w with
    ckms_quantiles_ := w.ckms_quantiles_.modify w.current_bucket_ Sketch.reset
    current_bucket_ :=
      if w.current_bucket_ + 1 ≥ w.ckms_quantiles_.length then 0 else w.current_bucket_ + 1
    last_rotation_ := w.last_rotation_ + w.rotation_interval_ }

/-- The rotation loop, for at most the given number of rounds. -/
def rotateLoop : (rounds : Nat) → (delta : Int) → TimeWindowQuantiles σ →
    Option (TimeWindowQuantiles σ)
  | rounds, delta, w =>
    if delta > w.rotation_interval_ then
      match rounds with
      | 0 => none
      | rounds + 1 => rotateLoop rounds (delta - w.rotation_interval_) w.rotateOnce
    else some w

/-- A round takes a positive interval off `delta`, so more rounds than `delta` are never needed:
`none` says that the loop does not end, which takes an interval that is not positive. -/
def rotate (w : TimeWindowQuantiles σ) (now : Int) : Option (TimeWindowQuantiles σ) :=
  rotateLoop (now - w.last_rotation_).toNat (now - w.last_rotation_) w

def get (w : TimeWindowQuantiles σ) (now : Int) (q : Double) :
    Option (Double × TimeWindowQuantiles σ) := do
  let w ← w.rotate now
  let bucket ← w.currentBucket
  let (value, bucket) := Sketch.get q bucket
  some (value, { w with ckms_quantiles_ := w.ckms_quantiles_.set w.current_bucket_ bucket })

def insert (w : TimeWindowQuantiles σ) (now : Int) (value : Number) :
    Option (TimeWindowQuantiles σ) := do
  let w ← w.rotate now
  some { w with ckms_quantiles_ := w.ckms_quantiles_.map (Sketch.insert value) }

end Code

/-! ## The rotation loop -/

section Loop

variable {σ : Type} [Sketch σ] {w w' : TimeWindowQuantiles σ}

@[simp] theorem rotateOnce_rotation_interval (w : TimeWindowQuantiles σ) :
    w.rotateOnce.rotation_interval_ = w.rotation_interval_ := rfl

theorem rotateLoop_done (rounds : Nat) {delta : Int} (h : delta ≤ w.rotation_interval_) :
    rotateLoop rounds delta w = some w := by
  cases rounds <;> rw [rotateLoop, if_neg (not_lt.mpr h)]

theorem rotateLoop_zero {delta : Int} (h : w.rotation_interval_ < delta) :
    rotateLoop 0 delta w = none := by
  rw [rotateLoop, if_pos h]

theorem rotateLoop_succ (rounds : Nat) {delta : Int} (h : w.rotation_interval_ < delta) :
    rotateLoop (rounds + 1) delta w =
      rotateLoop rounds (delta - w.rotation_interval_) w.rotateOnce := by
  rw [rotateLoop, if_pos h]

/-- The test of the loop fails when it is left. -/
theorem rotateLoop_exit {now : Int} (rounds : Nat) : ∀ {w : TimeWindowQuantiles σ},
    rotateLoop rounds (now - w.last_rotation_) w = some w' →
      now - w'.last_rotation_ ≤ w'.rotation_interval_ := by
  induction rounds with
  | zero =>
      intro w hloop
      rcases le_or_gt (now - w.last_rotation_) w.rotation_interval_ with hdone | hmore
      · rw [rotateLoop_done 0 hdone] at hloop
        exact Option.some.inj hloop ▸ hdone
      · rw [rotateLoop_zero hmore] at hloop
        cases hloop
  | succ rounds ih =>
      intro w hloop
      rcases le_or_gt (now - w.last_rotation_) w.rotation_interval_ with hdone | hmore
      · rw [rotateLoop_done _ hdone] at hloop
        exact Option.some.inj hloop ▸ hdone
      · -- The delay left is the one to the new last rotation.
        rw [rotateLoop_succ rounds hmore, Int.sub_sub] at hloop
        exact ih (w := w.rotateOnce) hloop

theorem rotateLoop_returns (rounds : Nat) : ∀ {delta : Int} {w : TimeWindowQuantiles σ},
    0 < w.rotation_interval_ → delta ≤ rounds → ∃ w', rotateLoop rounds delta w = some w' := by
  induction rounds with
  | zero =>
      intro delta w hI hdelta
      push_cast at hdelta
      exact ⟨w, rotateLoop_done 0 (by omega)⟩
  | succ rounds ih =>
      intro delta w hI hdelta
      rcases le_or_gt delta w.rotation_interval_ with hdone | hmore
      · exact ⟨w, rotateLoop_done _ hdone⟩
      · rw [rotateLoop_succ rounds hmore]
        refine ih hI ?_
        push_cast at hdelta
        omega

/-- Without a positive interval the delay never gets smaller. -/
theorem rotateLoop_diverges (rounds : Nat) : ∀ {delta : Int} {w : TimeWindowQuantiles σ},
    w.rotation_interval_ ≤ 0 → w.rotation_interval_ < delta → rotateLoop rounds delta w = none := by
  induction rounds with
  | zero =>
      intro delta w _ hmore
      exact rotateLoop_zero hmore
  | succ rounds ih =>
      intro delta w hI hmore
      rw [rotateLoop_succ rounds hmore]
      exact ih hI (by rw [rotateOnce_rotation_interval]; omega)

end Loop

/-! ## Timed runs -/

inductive Call where
  | insert (value : Number)
  | get (q : Double)

/-- A bucket with the calls made on it since its last reset. -/
instance {σ : Type} [Sketch σ] : Sketch (σ × List Call) where
  insert value b := (Sketch.insert value b.1, b.2 ++ [.insert value])
  get q b := ((Sketch.get q b.1).1, (Sketch.get q b.1).2, b.2 ++ [.get q])
  reset b := (Sketch.reset b.1, [])

/-- A call and what the clock reads in it. -/
structure TimedCall where
  now : Int
  call : Call

def step [Sketch σ] (w : TimeWindowQuantiles σ) (c : TimedCall) :
    Option (TimeWindowQuantiles σ) :=
  match c.call with
  | .insert value => w.insert c.now value
  | .get q => (w.get c.now q).map Prod.snd

def run [Sketch σ] (w : TimeWindowQuantiles σ) (calls : List TimedCall) :
    Option (TimeWindowQuantiles σ) := calls.foldlM step w

/-- The observations of a run: when they were made and what was observed. -/
def observations (calls : List TimedCall) : List (Int × Number) :=
  calls.filterMap fun c =>
    match c.call with
    | .insert value => some (c.now, value)
    | .get _ => none

/-- Clock readings that never go back, from `now` on. -/
def Monotone (now : Int) (calls : List TimedCall) : Prop :=
  (now :: calls.map TimedCall.now).Pairwise (· ≤ ·)

/-! ## Rotation boundaries -/

/-- The boundaries `t0 + j I`, `j >= 1`, passed at time `t` but not yet at time `s`; a boundary is
passed at the times beyond it. There are fewer than `t - t0` of them. -/
def boundariesBetween (t0 I s t : Int) : Nat :=
  ((Finset.Icc 1 (t - t0).toNat).filter fun j : ℕ => s ≤ t0 + j * I ∧ t0 + j * I < t).card

/-- The number of boundaries passed at time `t`. -/
def epoch (t0 I t : Int) : Nat := ((t - t0 - 1) / I).toNat

section Boundaries

variable {t0 I : Int}

theorem le_epoch_iff (t0 : Int) (hI : 0 < I) (t : Int) {j : Nat} (hj : 1 ≤ j) :
    j ≤ epoch t0 I t ↔ t0 + j * I < t := by
  have hle : j ≤ epoch t0 I t ↔ (j : Int) ≤ (t - t0 - 1) / I := by
    unfold epoch
    omega
  rw [hle, Int.le_ediv_iff_mul_le hI]
  omega

theorem epoch_mono (hI : 0 < I) {s t : Int} (h : s ≤ t) : epoch t0 I s ≤ epoch t0 I t :=
  Int.toNat_le_toNat (Int.ediv_le_ediv hI (by omega))

theorem epoch_start (hI : 0 < I) : epoch t0 I t0 = 0 := by
  by_contra h
  have hone := (le_epoch_iff t0 hI t0 (le_refl 1)).mp (Nat.one_le_iff_ne_zero.mpr h)
  push_cast at hone
  omega

theorem boundariesBetween_eq (hI : 0 < I) {s t : Int} :
    boundariesBetween t0 I s t = epoch t0 I t - epoch t0 I s := by
  have hset : (Finset.Icc 1 (t - t0).toNat).filter
      (fun j : ℕ => s ≤ t0 + j * I ∧ t0 + j * I < t) =
        Finset.Ioc (epoch t0 I s) (epoch t0 I t) := by
    ext j
    simp only [Finset.mem_filter, Finset.mem_Icc, Finset.mem_Ioc]
    rcases Nat.eq_zero_or_pos j with rfl | hj
    · omega
    · have hs := le_epoch_iff t0 hI s hj
      have ht := le_epoch_iff t0 hI t hj
      have hjI : (j : Int) ≤ j * I := le_mul_of_one_le_right (by positivity) hI
      omega
  rw [boundariesBetween, hset, Nat.card_Ioc]

/-- Fewer than `k` boundaries fit into `k - 1` intervals. -/
theorem boundariesBetween_lt_of_recent (hI : 0 < I) {s t : Int} {k : Nat} (hk : 1 ≤ k)
    (hage : t - s ≤ (k - 1) * I) : boundariesBetween t0 I s t < k := by
  rw [boundariesBetween_eq hI]
  by_contra hge
  -- Otherwise the boundary `k - 1` after the first one missed is passed at `t`.
  have ht := (le_epoch_iff t0 hI t (j := epoch t0 I s + 1 + (k - 1)) (by omega)).mp (by omega)
  have hs : ¬ t0 + (epoch t0 I s + 1 : Nat) * I < s := by
    rw [← le_epoch_iff t0 hI s (by omega)]
    omega
  push_cast [Nat.cast_sub hk] at ht hs
  have : (epoch t0 I s + 1 + (k - 1) : Int) * I = (epoch t0 I s + 1) * I + (k - 1) * I := by ring
  omega

/-- At least `k` boundaries are passed within `k` intervals, except at their very end for what was
observed at the construction time, which is no boundary. -/
theorem le_boundariesBetween_of_old (hI : 0 < I) {s t : Int} {k : Nat} (hs : t0 ≤ s)
    (hage : k * I ≤ t - s) (hstrict : t0 < s ∨ k * I < t - s) :
    k ≤ boundariesBetween t0 I s t := by
  rw [boundariesBetween_eq hI]
  rcases Nat.eq_zero_or_pos k with rfl | hk
  · exact Nat.zero_le _
  · have ht : epoch t0 I s + k ≤ epoch t0 I t := by
      rw [le_epoch_iff t0 hI t (by omega)]
      have hsplit : ((epoch t0 I s + k : Nat) : Int) * I = epoch t0 I s * I + k * I := by
        push_cast
        ring
      -- The last boundary passed at `s` is before `s`; without one, `t0` is not after it.
      rcases Nat.eq_zero_or_pos (epoch t0 I s) with hzero | hpos
      · rw [hsplit, hzero]
        push_cast
        omega
      · have := (le_epoch_iff t0 hI s hpos).mp (le_refl _)
        rw [hsplit]
        omega
    omega

end Boundaries

end TimeWindowQuantiles

end PrometheusCpp
