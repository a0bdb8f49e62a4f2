/-
# PrometheusCpp.Core.TimeWindowContents -- what a query of the sliding window reads

Buckets that log the calls made on them go through the code in step with the bare sketches
(`run_mapBuckets`), so the log of the bucket read by a query is what its sketch was given since its
last reset. One round of the rotation loop is one epoch of the bucket ring (`rotateOnce_ring`), and
the loop makes the rotations that are due and leaves a clock that went back alone (`At.rotate`). So
the bucket read holds the insertions with fewer than `k` rotations behind them and its own queries
since it became current, under any clock (`read_windowCalls`); under one that never goes back these
are the observations with fewer than `k` rotation boundaries behind them (`get_reads_window`).
-/
import PrometheusCpp.Core.TimeWindowQuantiles

namespace PrometheusCpp.TimeWindowQuantiles

open BucketRing

variable {σ τ : Type}

def ring (w : TimeWindowQuantiles σ) : BucketRing.Ring σ := ⟨w.ckms_quantiles_, w.current_bucket_⟩

def mapBuckets (f : σ → τ) (w : TimeWindowQuantiles σ) : TimeWindowQuantiles τ :=
  { w with ckms_quantiles_ := w.ckms_quantiles_.map f }

theorem new_mapBuckets (f : σ → τ) (empty : σ) (max_age : Int) (age_buckets : Nat) (now : Int) :
    (new empty max_age age_buckets now).mapBuckets f = new (f empty) max_age age_buckets now := by
  simp [new, mapBuckets]

/-- An insertion is for all buckets, a query for the current one. -/
def Call.shared : Call → Bool
  | .insert _ => true
  | .get _ => false

def Call.value? : Call → Option Number
  | .insert value => some value
  | .get _ => none

/-- The values inserted by calls on a bucket. -/
def inserted (calls : List Call) : List Number := calls.filterMap Call.value?

@[simp] theorem inserted_insert (value : Number) (calls : List Call) :
    inserted (.insert value :: calls) = value :: inserted calls := rfl

@[simp] theorem inserted_get (q : Double) (calls : List Call) :
    inserted (.get q :: calls) = inserted calls := rfl

/-- The window after a number of rotations: the ring holds the calls made so far, each with the
number of rotations made before it. -/
structure At (t0 I : Int) (k rotations : Nat) (made : List (Nat × Call))
    (w : TimeWindowQuantiles (σ × List Call)) : Prop where
  holds : Holds Call.shared Prod.snd k rotations made w.ring
  last : w.last_rotation_ = t0 + rotations * I
  interval : w.rotation_interval_ = I

theorem new_at (empty : σ) (max_age t0 : Int) {k : Nat} (hk : 0 < k) :
    At t0 (max_age.tdiv k) k 0 [] (new (empty, []) max_age k t0) where
  holds := holds_replicate hk rfl
  last := by simp [new]
  interval := rfl

/-- The observations with fewer than `k` rotation boundaries between them and `t`. -/
def window (t0 I : Int) (k : Nat) (t : Int) (observed : List (Int × Number)) :
    List (Int × Number) :=
  observed.filter fun o => boundariesBetween t0 I o.1 t < k

variable [Sketch σ] [Sketch τ]

/-- The bucket a query at time `now` reads. -/
def bucketAt (w : TimeWindowQuantiles σ) (now : Int) : Option σ :=
  (w.rotate now).bind currentBucket

theorem get_fst (w : TimeWindowQuantiles σ) (now : Int) (q : Double) :
    (w.get now q).map Prod.fst = (w.bucketAt now).map fun b => (Sketch.get q b).1 := by
  unfold get bucketAt
  cases w.rotate now with
  | none => rfl
  | some w' =>
      cases hb : w'.currentBucket with
      | none => simp [hb]
      | some b => simp [hb]

/-! ## Buckets in step -/

/-- A map between buckets that the ring's calls respect. -/
structure SketchHom (f : σ → τ) : Prop where
  insert : ∀ value b, f (Sketch.insert value b) = Sketch.insert value (f b)
  get : ∀ q b, Sketch.get q (f b) = ((Sketch.get q b).1, f (Sketch.get q b).2)
  reset : ∀ b, f (Sketch.reset b) = Sketch.reset (f b)

/-- Forgetting the log. -/
theorem fst_sketchHom : SketchHom (Prod.fst : σ × List Number → σ) :=
  ⟨fun _ _ => rfl, fun _ _ => rfl, fun _ => rfl⟩

theorem fst_calls_sketchHom : SketchHom (Prod.fst : σ × List Call → σ) :=
  ⟨fun _ _ => rfl, fun _ _ => rfl, fun _ => rfl⟩

/-- Forgetting the queries. -/
theorem inserted_sketchHom :
    SketchHom (fun b : σ × List Call => ((b.1, inserted b.2) : σ × List Number)) where
  insert value b := by simp [Sketch.insert, inserted, Call.value?]
  get q b := by simp [Sketch.get, inserted, Call.value?]
  reset b := rfl

section Hom

variable {f : σ → τ} (hf : SketchHom f)

include hf

theorem rotateOnce_mapBuckets (w : TimeWindowQuantiles σ) :
    (w.mapBuckets f).rotateOnce = w.rotateOnce.mapBuckets f := by
  have hmodify : (w.ckms_quantiles_.map f).modify w.current_bucket_ Sketch.reset
      = (w.ckms_quantiles_.modify w.current_bucket_ Sketch.reset).map f := by
    apply List.ext_getElem?
    intro i
    simp only [List.getElem?_modify, List.getElem?_map]
    cases w.ckms_quantiles_[i]? with
    | none => rfl
    | some b => by_cases hi : w.current_bucket_ = i <;> simp [hi, hf.reset]
  simp [rotateOnce, mapBuckets, hmodify]

theorem rotateLoop_mapBuckets (rounds : Nat) : ∀ (delta : Int) (w : TimeWindowQuantiles σ),
    rotateLoop rounds delta (w.mapBuckets f) = (rotateLoop rounds delta w).map (mapBuckets f) := by
  induction rounds with
  | zero =>
      intro delta w
      by_cases hdelta : delta > w.rotation_interval_ <;> simp [rotateLoop, mapBuckets, hdelta]
  | succ rounds ih =>
      intro delta w
      have hinterval : (w.mapBuckets f).rotation_interval_ = w.rotation_interval_ := rfl
      simp only [rotateLoop, rotateOnce_mapBuckets hf, hinterval, ih]
      by_cases hdelta : delta > w.rotation_interval_ <;> simp [hdelta]

theorem rotate_mapBuckets (w : TimeWindowQuantiles σ) (now : Int) :
    (w.mapBuckets f).rotate now = (w.rotate now).map (mapBuckets f) :=
  rotateLoop_mapBuckets hf _ _ _

theorem bucketAt_mapBuckets (w : TimeWindowQuantiles σ) (now : Int) :
    (w.mapBuckets f).bucketAt now = (w.bucketAt now).map f := by
  unfold bucketAt
  rw [rotate_mapBuckets hf]
  cases w.rotate now with
  | none => rfl
  | some w' => simp [currentBucket, mapBuckets]

theorem step_mapBuckets (w : TimeWindowQuantiles σ) (c : TimedCall) :
    step (w.mapBuckets f) c = (step w c).map (mapBuckets f) := by
  unfold step
  cases c.call with
  | insert value =>
      simp only [insert, rotate_mapBuckets hf]
      cases w.rotate c.now with
      | none => rfl
      | some w' =>
          have hmap : w'.ckms_quantiles_.map (Sketch.insert value ∘ f) =
              w'.ckms_quantiles_.map (f ∘ Sketch.insert value) :=
            List.map_congr_left fun b _ => (hf.insert value b).symm
          simp [mapBuckets, hmap]
  | get q =>
      simp only [get, rotate_mapBuckets hf]
      cases w.rotate c.now with
      | none => rfl
      | some w' =>
          cases hb : w'.ckms_quantiles_[w'.current_bucket_]? with
          | none => simp [mapBuckets, currentBucket, hb]
          | some b => simp [mapBuckets, currentBucket, hb, hf.get, List.map_set]

theorem run_mapBuckets (calls : List TimedCall) : ∀ w : TimeWindowQuantiles σ,
    run (w.mapBuckets f) calls = (run w calls).map (mapBuckets f) := by
  induction calls with
  | nil => intro w; rfl
  | cons c calls ih =>
      intro w
      have hstep : ∀ (w : TimeWindowQuantiles τ), run w (c :: calls) =
          (step w c).bind fun w' => run w' calls := fun w => rfl
      have hstep' : run w (c :: calls) = (step w c).bind fun w' => run w' calls := rfl
      rw [hstep, hstep', step_mapBuckets hf]
      cases step w c with
      | none => rfl
      | some w' => exact ih w'

end Hom

/-! ## The ring catches up with the clock -/

theorem rotateOnce_ring (w : TimeWindowQuantiles σ) :
    w.rotateOnce.ring = w.ring.advance Sketch.reset := rfl

/-- The number of rotations when the clock has been read, `rotations` of them having been made. With
an interval that is not positive there are no more, since the loop ends only if it is left at once. -/
def due (t0 I : Int) (rotations : Nat) (now : Int) : Nat :=
  if 0 < I then max rotations (epoch t0 I now) else rotations

/-- The calls of a run, each with the number of rotations made before it. -/
def stamped (t0 I : Int) : (rotations : Nat) → List TimedCall → List (Nat × Call)
  | _, [] => []
  | rotations, c :: calls =>
    (due t0 I rotations c.now, c.call) :: stamped t0 I (due t0 I rotations c.now) calls

/-- The number of rotations after a run. -/
def rotationsAfter (t0 I : Int) (rotations : Nat) (calls : List TimedCall) : Nat :=
  calls.foldl (fun rotations c => due t0 I rotations c.now) rotations

section Run

variable {t0 I : Int} {k rotations : Nat} {made : List (Nat × Call)}
  {w w' : TimeWindowQuantiles (σ × List Call)}

theorem At.rotateOnce (h : At t0 I k rotations made w) :
    At t0 I k (rotations + 1) made w.rotateOnce where
  holds := by
    rw [rotateOnce_ring]
    exact h.holds.advance fun _ => rfl
  last := by
    rw [TimeWindowQuantiles.rotateOnce, h.last, h.interval]
    push_cast
    ring
  interval := h.interval

omit [Sketch σ] in
/-- Another rotation is due when more than an interval has passed since the last one. -/
theorem At.succ_le_epoch_iff (h : At t0 I k rotations made w) (hI : 0 < I) (now : Int) :
    rotations + 1 ≤ epoch t0 I now ↔ w.rotation_interval_ < now - w.last_rotation_ := by
  rw [le_epoch_iff t0 hI now (by omega), h.last, h.interval]
  push_cast
  constructor <;> intro h <;> nlinarith

/-- The loop makes the rotations that are due. -/
theorem rotateLoop_at (now : Int) (rounds : Nat) :
    ∀ {rotations : Nat} {w : TimeWindowQuantiles (σ × List Call)}, At t0 I k rotations made w →
      rotateLoop rounds (now - w.last_rotation_) w = some w' →
      At t0 I k (due t0 I rotations now) made w' := by
  -- Once the loop is left no rotation is due.
  have hleft : ∀ {rotations : Nat} {w : TimeWindowQuantiles (σ × List Call)},
      At t0 I k rotations made w → now - w.last_rotation_ ≤ w.rotation_interval_ →
      At t0 I k (due t0 I rotations now) made w := by
    intro rotations w h hdone
    have hsame : due t0 I rotations now = rotations := by
      rw [due]
      split_ifs with hI
      · have hnot := (h.succ_le_epoch_iff hI now).not.mpr (not_lt.mpr hdone)
        omega
      · rfl
    rwa [hsame]
  induction rounds with
  | zero =>
      intro rotations w h hloop
      rcases le_or_gt (now - w.last_rotation_) w.rotation_interval_ with hdone | hmore
      · rw [rotateLoop_done 0 hdone] at hloop
        exact Option.some.inj hloop ▸ hleft h hdone
      · rw [rotateLoop_zero hmore] at hloop
        cases hloop
  | succ rounds ih =>
      intro rotations w h hloop
      rcases le_or_gt (now - w.last_rotation_) w.rotation_interval_ with hdone | hmore
      · rw [rotateLoop_done _ hdone] at hloop
        exact Option.some.inj hloop ▸ hleft h hdone
      · -- The loop goes on with what is left of the time, one rotation further.
        have hI : 0 < I := by
          by_contra hI
          rw [rotateLoop_diverges _ (by rw [h.interval]; exact not_lt.mp hI) hmore] at hloop
          cases hloop
        have hdue := (h.succ_le_epoch_iff hI now).mpr hmore
        rw [rotateLoop_succ rounds hmore, Int.sub_sub] at hloop
        have hat := ih (w := w.rotateOnce) h.rotateOnce hloop
        rw [due, if_pos hI] at hat ⊢
        rwa [max_eq_right hdue, ← max_eq_right (Nat.le_of_succ_le hdue)] at hat

theorem At.rotate (h : At t0 I k rotations made w) {now : Int} (hrotate : w.rotate now = some w') :
    At t0 I k (due t0 I rotations now) made w' :=
  rotateLoop_at now _ h hrotate

theorem At.exists_rotate (h : At t0 I k rotations made w) (hI : 0 < I) (now : Int) :
    ∃ w', w.rotate now = some w' :=
  rotateLoop_returns _ (by rw [h.interval]; exact hI) (Int.self_le_toNat _)

theorem At.step (h : At t0 I k rotations made w) {c : TimedCall} (hstep : step w c = some w') :
    At t0 I k (due t0 I rotations c.now) (made ++ [(due t0 I rotations c.now, c.call)]) w' := by
  obtain ⟨now, call⟩ := c
  cases call with
  | insert value =>
      obtain ⟨w₁, hrotate, hw'⟩ := Option.bind_eq_some_iff.mp hstep
      have hat := h.rotate hrotate
      rw [← Option.some.inj hw']
      exact ⟨hat.holds.mapAll (f := Sketch.insert value) rfl fun _ => rfl, hat.last, hat.interval⟩
  | get q =>
      obtain ⟨r, hget, rfl⟩ := Option.map_eq_some_iff.mp hstep
      obtain ⟨w₁, hrotate, hbucket⟩ := Option.bind_eq_some_iff.mp hget
      obtain ⟨b, hcurrent, hr⟩ := Option.bind_eq_some_iff.mp hbucket
      have hat := h.rotate hrotate
      rw [← Option.some.inj hr]
      exact ⟨hat.holds.setHead (Sketch.get q b).2 rfl hcurrent rfl, hat.last, hat.interval⟩

theorem At.exists_step (h : At t0 I k rotations made w) (hI : 0 < I) (c : TimedCall) :
    ∃ w', TimeWindowQuantiles.step w c = some w' := by
  obtain ⟨w', hrotate⟩ := h.exists_rotate hI c.now
  obtain ⟨b, hb, -⟩ := (h.rotate hrotate).holds.head
  obtain ⟨now, call⟩ := c
  have hb' : w'.currentBucket = some b := hb
  cases call with
  | insert value => exact ⟨_, by simp [TimeWindowQuantiles.step, insert, hrotate]; rfl⟩
  | get q => exact ⟨_, by simp [TimeWindowQuantiles.step, get, hrotate, hb']; rfl⟩

/-- A run ends after the rotations of its readings, with all its calls in the ring. -/
theorem At.run (calls : List TimedCall) : ∀ {rotations : Nat} {made : List (Nat × Call)}
    {w : TimeWindowQuantiles (σ × List Call)}, At t0 I k rotations made w →
      run w calls = some w' →
      At t0 I k (rotationsAfter t0 I rotations calls) (made ++ stamped t0 I rotations calls) w' := by
  induction calls with
  | nil =>
      intro rotations made w h hrun
      rw [stamped, List.append_nil]
      exact Option.some.inj hrun ▸ h
  | cons c calls ih =>
      intro rotations made w h hrun
      obtain ⟨w₁, hstep, hrest⟩ := Option.bind_eq_some_iff.mp hrun
      have hat := ih (h.step hstep) hrest
      rwa [List.append_assoc] at hat

theorem At.exists_run (hI : 0 < I) (calls : List TimedCall) : ∀ {rotations : Nat}
    {made : List (Nat × Call)} {w : TimeWindowQuantiles (σ × List Call)},
      At t0 I k rotations made w → ∃ w', TimeWindowQuantiles.run w calls = some w' := by
  induction calls with
  | nil => intro rotations made w _; exact ⟨w, rfl⟩
  | cons c calls ih =>
      intro rotations made w h
      obtain ⟨w₁, hstep⟩ := h.exists_step hI c
      obtain ⟨w', hrest⟩ := ih (h.step hstep)
      exact ⟨w', Option.bind_eq_some_iff.mpr ⟨w₁, hstep, hrest⟩⟩

end Run

/-! ## What a query reads -/

theorem monotone_of_append {t0 : Int} {calls : List TimedCall} {c : TimedCall}
    (h : Monotone t0 (calls ++ [c])) :
    Monotone t0 calls ∧ t0 ≤ c.now ∧ ∀ c' ∈ calls, t0 ≤ c'.now ∧ c'.now ≤ c.now := by
  unfold Monotone at h ⊢
  rw [List.map_append, ← List.cons_append, List.pairwise_append] at h
  obtain ⟨hcalls, -, hlast⟩ := h
  have hle : ∀ s ∈ t0 :: calls.map TimedCall.now, s ≤ c.now := fun s hs => hlast s hs _ (by simp)
  refine ⟨hcalls, hle t0 (by simp), fun c' hc' => ⟨?_, ?_⟩⟩
  · exact (List.pairwise_cons.mp hcalls).1 _ (List.mem_map_of_mem hc')
  · exact hle _ (List.mem_cons_of_mem _ (List.mem_map_of_mem hc'))

/-- The calls made since its last reset on the bucket that is read at time `t`. -/
def windowCalls (t0 I : Int) (k : Nat) (calls : List TimedCall) (t : Int) : List Call :=
  reach Call.shared k (due t0 I (rotationsAfter t0 I 0 calls) t) 0 (stamped t0 I 0 calls)

/-- After any calls that return, under any clock. -/
theorem read_windowCalls {empty : σ} {max_age t0 t : Int} {k : Nat} (hk : 0 < k)
    {calls : List TimedCall} {w w' : TimeWindowQuantiles (σ × List Call)}
    (hrun : run (new (empty, []) max_age k t0) calls = some w) (hrotate : w.rotate t = some w') :
    ∃ b, w'.currentBucket = some b ∧ b.2 = windowCalls t0 (max_age.tdiv k) k calls t := by
  have hat := ((new_at empty max_age t0 hk).run calls hrun).rotate hrotate
  exact hat.holds.head

/-- With a clock that never goes back, the rotations made are the boundaries passed. -/
theorem stamped_of_monotone (t0 : Int) {I : Int} (hI : 0 < I) (calls : List TimedCall) : ∀ {s t : Int},
    Monotone s calls → (∀ now ∈ s :: calls.map TimedCall.now, now ≤ t) →
      stamped t0 I (epoch t0 I s) calls = calls.map (fun c => (epoch t0 I c.now, c.call)) ∧
        due t0 I (rotationsAfter t0 I (epoch t0 I s) calls) t = epoch t0 I t := by
  have hdue : ∀ {s t : Int}, s ≤ t → due t0 I (epoch t0 I s) t = epoch t0 I t := by
    intro s t hst
    rw [due, if_pos hI, max_eq_right (epoch_mono hI hst)]
  induction calls with
  | nil => intro s t _ hlast; exact ⟨rfl, hdue (hlast s List.mem_cons_self)⟩
  | cons c calls ih =>
      intro s t hmono hlast
      obtain ⟨hfirst, hrest⟩ := List.pairwise_cons.mp hmono
      have hc := hdue (hfirst _ List.mem_cons_self)
      obtain ⟨hstamped, hafter⟩ := ih hrest fun now hnow => hlast now (List.mem_cons_of_mem _ hnow)
      refine ⟨by rw [stamped, hc, hstamped, List.map_cons], ?_⟩
      rw [rotationsAfter, List.foldl_cons, hc]
      exact hafter

/-- With such a clock, the values inserted are those of the window. -/
theorem inserted_windowCalls {t0 I t : Int} {k : Nat} (hI : 0 < I) {calls : List TimedCall}
    (hmono : Monotone t0 calls) (hlast : ∀ now ∈ t0 :: calls.map TimedCall.now, now ≤ t) :
    inserted (windowCalls t0 I k calls t) =
      (window t0 I k t (observations calls)).map Prod.snd := by
  obtain ⟨hstamped, hdue⟩ := stamped_of_monotone t0 hI calls hmono hlast
  rw [epoch_start hI] at hstamped hdue
  rw [windowCalls, hstamped, hdue]
  -- Call by call, from here on.
  have hpast : ∀ c ∈ calls, epoch t0 I c.now ≤ epoch t0 I t := fun c hc =>
    epoch_mono hI (hlast _ (List.mem_cons_of_mem _ (List.mem_map_of_mem hc)))
  clear hmono hlast hstamped hdue
  induction calls with
  | nil => rfl
  | cons c calls ih =>
      obtain ⟨now, call⟩ := c
      have hrest := ih fun c hc => hpast c (List.mem_cons_of_mem _ hc)
      cases call with
      | insert value =>
          have hnow : epoch t0 I now ≤ epoch t0 I t := hpast ⟨now, _⟩ List.mem_cons_self
          have hsame : epoch t0 I t < epoch t0 I now + k ↔ boundariesBetween t0 I now t < k := by
            rw [boundariesBetween_eq hI]
            omega
          by_cases hin : boundariesBetween t0 I now t < k <;>
            simp_all [reach, InReach, Call.shared, window, observations]
      | get q =>
          by_cases hin : epoch t0 I now = epoch t0 I t <;>
            simp_all [reach, InReach, Call.shared, window, observations]

/-- An observation is made at the time of a call. -/
theorem exists_call_of_mem_observations {calls : List TimedCall} {o : Int × Number}
    (h : o ∈ observations calls) : ∃ c ∈ calls, c.now = o.1 := by
  obtain ⟨c, hc, hco⟩ := List.mem_filterMap.mp h
  refine ⟨c, hc, ?_⟩
  cases hcall : c.call with
  | insert value =>
      simp [hcall] at hco
      exact congrArg Prod.fst hco
  | get q => simp [hcall] at hco

/-- The bare run is the logging one with the logs forgotten. -/
theorem run_new_fst (empty : CKMSQuantiles) (max_age t0 : Int) (k : Nat) (calls : List TimedCall) :
    run (new empty max_age k t0) calls =
      (run (new (empty, ([] : List Number)) max_age k t0) calls).map (mapBuckets Prod.fst) := by
  rw [← run_mapBuckets fst_sketchHom, new_mapBuckets]

/-- A query at time `t` reads the sketch whose insertions since its last reset are the observations
in the window: all those up to `k - 1` intervals old, and none that is `k` intervals old, unless it
is exactly that old and was made at construction time. Other queries have no part in it. -/
theorem get_reads_window (quantiles : List CKMSQuantiles.Quantile) (max_age t0 t : Int) (k : Nat)
    (calls : List TimedCall) (q : Double) (hI : 0 < max_age.tdiv k)
    (htime : Monotone t0 (calls ++ [⟨t, .get q⟩])) :
    ∃ (sketch : CKMSQuantiles) (log : List Number),
      (run (new (CKMSQuantiles.new quantiles) max_age k t0) calls).bind
          (fun w => (w.get t q).map Prod.fst) = some (sketch.get q).1 ∧
      (run (new (CKMSQuantiles.new quantiles) max_age k t0) calls).bind (bucketAt · t) =
        some sketch ∧
      (run (new (CKMSQuantiles.new quantiles, []) max_age k t0) calls).bind (bucketAt · t) =
        some (sketch, log) ∧
      log = (window t0 (max_age.tdiv k) k t (observations calls)).map Prod.snd ∧
      ∀ o ∈ observations calls,
        (t - o.1 ≤ (k - 1) * max_age.tdiv k →
          o ∈ window t0 (max_age.tdiv k) k t (observations calls)) ∧
        (k * max_age.tdiv k ≤ t - o.1 → t0 < o.1 ∨ k * max_age.tdiv k < t - o.1 →
          o ∉ window t0 (max_age.tdiv k) k t (observations calls)) := by
  have hk : 0 < k := by
    rcases Nat.eq_zero_or_pos k with rfl | hk
    · simp at hI
    · exact hk
  obtain ⟨hcalls, ht0, hrange⟩ := monotone_of_append htime
  have hlast : ∀ now ∈ t0 :: calls.map TimedCall.now, now ≤ t := by
    refine List.forall_mem_cons.mpr ⟨ht0, List.forall_mem_map.mpr fun c hc => (hrange c hc).2⟩
  -- Through the ring whose buckets log all calls.
  have hnew := new_at (CKMSQuantiles.new quantiles) max_age t0 hk
  obtain ⟨w₁, hrun₁⟩ := At.exists_run hI calls hnew
  obtain ⟨w₂, hrotate⟩ := (hnew.run calls hrun₁).exists_rotate hI t
  obtain ⟨⟨sketch, made⟩, hcurrent, hmade⟩ := read_windowCalls hk hrun₁ hrotate
  obtain ⟨w, hw⟩ : ∃ w, w = w₁.mapBuckets fun b => (b.1, inserted b.2) := ⟨_, rfl⟩
  have hrun : run (new (CKMSQuantiles.new quantiles, ([] : List Number)) max_age k t0) calls =
      some w := by
    rw [hw, ← Option.map_some, ← hrun₁, ← run_mapBuckets inserted_sketchHom, new_mapBuckets]
    rfl
  obtain ⟨log, hlog⟩ : ∃ log, log = inserted made := ⟨_, rfl⟩
  have hlogged : w.bucketAt t = some (sketch, log) := by
    have hbucket : w₁.bucketAt t = some (sketch, made) := by
      rw [bucketAt, hrotate]
      exact hcurrent
    rw [hw, bucketAt_mapBuckets inserted_sketchHom, hbucket, hlog, Option.map_some]
  have hbareRun : run (new (CKMSQuantiles.new quantiles) max_age k t0) calls =
      some (w.mapBuckets Prod.fst) := by
    rw [run_new_fst, hrun, Option.map_some]
  have hbare : (w.mapBuckets Prod.fst).bucketAt t = some sketch := by
    rw [bucketAt_mapBuckets fst_sketchHom, hlogged, Option.map_some]
  refine ⟨sketch, log, ?_, ?_, ?_, ?_, fun o ho => ⟨fun hage => ?_, fun hage hstrict hin => ?_⟩⟩
  · rw [hbareRun, Option.bind_some, get_fst, hbare]
    rfl
  · rw [hbareRun, Option.bind_some, hbare]
  · rw [hrun, Option.bind_some, hlogged]
  · rw [hlog, ← inserted_windowCalls hI hcalls hlast, ← hmade]
  · exact List.mem_filter.mpr ⟨ho, decide_eq_true (boundariesBetween_lt_of_recent hI hk hage)⟩
  · have hfrom : t0 ≤ o.1 := by
      obtain ⟨c, hc, hnow⟩ := exists_call_of_mem_observations ho
      exact hnow ▸ (hrange c hc).1
    have hold := le_boundariesBetween_of_old hI hfrom hage hstrict
    exact absurd (of_decide_eq_true (List.mem_filter.mp hin).2) (not_lt.mpr hold)

/-- Two buckets over ten ticks: at time 12 the observation made at 7 is in the window, the one made
at 1 is not. -/
theorem get_reads_window_of_two : ∃ sketch : CKMSQuantiles,
    (run (new (CKMSQuantiles.new [], ([] : List Number)) 10 2 0)
        [⟨1, .insert (.fin 1)⟩, ⟨7, .insert (.fin 2)⟩]).bind (bucketAt · 12) =
      some (sketch, [.fin 2]) := by
  obtain ⟨sketch, log, -, -, hlogged, hlog, -⟩ := get_reads_window [] 10 0 12 2
    [⟨1, .insert (.fin 1)⟩, ⟨7, .insert (.fin 2)⟩] 0 (by decide) (by simp [Monotone])
  have hwindow : (window 0 (Int.tdiv 10 2) 2 12 (observations
      [⟨1, .insert (.fin 1)⟩, ⟨7, .insert (.fin 2)⟩])).map Prod.snd = [.fin 2] := by
    decide +kernel
  exact ⟨sketch, by rw [hlogged, hlog]; exact congrArg (fun l => some (sketch, l)) hwindow⟩

/-- The first interval is longer by the instant at which it starts: with one bucket and an interval
of one tick, an observation made at construction time is still read at age one. -/
theorem get_reads_full_age : ¬ ∀ (quantiles : List CKMSQuantiles.Quantile) (max_age t0 t : Int)
      (k : Nat) (calls : List TimedCall) (sketch : CKMSQuantiles) (log : List Number),
    0 < max_age.tdiv k → Monotone t0 (calls ++ [⟨t, .get 0⟩]) →
    (run (new (CKMSQuantiles.new quantiles, []) max_age k t0) calls).bind (bucketAt · t) =
      some (sketch, log) →
    (∀ o ∈ observations calls, k * max_age.tdiv k ≤ t - o.1) → log = [] := by
  intro h
  have hrun : (run (new (CKMSQuantiles.new [], ([] : List Number)) 1 1 0)
      [⟨0, .insert (.fin 1)⟩]).bind (bucketAt · 1) =
        some ((CKMSQuantiles.new []).insert (.fin 1), [.fin 1]) := by decide +kernel
  have hempty := h [] 1 0 1 1 [⟨0, .insert (.fin 1)⟩] _ _ (by decide) (by simp [Monotone]) hrun
    (by simp [observations])
  exact List.cons_ne_nil _ _ hempty

end PrometheusCpp.TimeWindowQuantiles
