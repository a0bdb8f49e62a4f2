/-
# PrometheusCpp.Core.SummaryRotation -- when the rotation loop of a summary ends

The rotation interval is `max_age / age_buckets`, and neither argument of the constructor is looked
at. An interval of at least a tick takes something off the loop's delay in every round. An interval
of zero, or a negative one, does not, and the loop runs on from the first tick; without buckets the
interval is a division by zero. `rotation_terminates_iff` says which arguments are safe.
-/
import PrometheusCpp.Core.SummaryRuns

namespace PrometheusCpp

namespace TimeWindowQuantiles

/-! ## The loop -/

section Loop

variable {σ : Type} [Sketch σ] {w w' : TimeWindowQuantiles σ}

theorem rotateLoop_unique (rounds : Nat) : ∀ {rounds' : Nat} {delta : Int}
    {w w₁ w₂ : TimeWindowQuantiles σ}, rotateLoop rounds delta w = some w₁ →
      rotateLoop rounds' delta w = some w₂ → w₁ = w₂ := by
  induction rounds with
  | zero =>
      intro rounds' delta w w₁ w₂ h₁ h₂
      rcases le_or_gt delta w.rotation_interval_ with hdone | hmore
      · rw [rotateLoop_done _ hdone] at h₁ h₂
        exact Option.some.inj (h₁.symm.trans h₂)
      · rw [rotateLoop_zero hmore] at h₁
        cases h₁
  | succ rounds ih =>
      intro rounds' delta w w₁ w₂ h₁ h₂
      rcases le_or_gt delta w.rotation_interval_ with hdone | hmore
      · rw [rotateLoop_done _ hdone] at h₁ h₂
        exact Option.some.inj (h₁.symm.trans h₂)
      · rw [rotateLoop_succ rounds hmore] at h₁
        cases rounds' with
        | zero =>
            rw [rotateLoop_zero hmore] at h₂
            cases h₂
        | succ rounds' =>
            rw [rotateLoop_succ rounds' hmore] at h₂
            exact ih h₁ h₂

/-- The rounds `rotate` allows are enough whenever any number is. -/
theorem rotate_eq_some_iff {now : Int} :
    w.rotate now = some w' ↔ ∃ rounds, rotateLoop rounds (now - w.last_rotation_) w = some w' := by
  refine ⟨fun h => ⟨_, h⟩, ?_⟩
  rintro ⟨rounds, hloop⟩
  have hreturns : ∃ w'', w.rotate now = some w'' := by
    rcases le_or_gt (now - w.last_rotation_) w.rotation_interval_ with hdone | hmore
    · exact ⟨w, rotateLoop_done _ hdone⟩
    · have hI : 0 < w.rotation_interval_ := by
        by_contra hI
        rw [rotateLoop_diverges rounds (not_lt.mp hI) hmore] at hloop
        cases hloop
      exact rotateLoop_returns _ hI (Int.self_le_toNat _)
  obtain ⟨w'', hw''⟩ := hreturns
  rw [hw'', rotateLoop_unique _ hw'' hloop]

end Loop

/-- The number of buckets, the index and the interval, which no call changes. -/
structure Shape (k : Int) (I : Int) (w : TimeWindowQuantiles CKMSQuantiles) : Prop where
  length : (w.ckms_quantiles_.length : Int) = k
  inRange : w.InRange
  interval : w.rotation_interval_ = I

theorem shape_invariant (k I : Int) : Invariant (Shape k I) where
  rotateOnce h :=
    ⟨by simpa [rotateOnce] using h.length, inRange_invariant.rotateOnce h.inRange, h.interval⟩
  buckets hlength h :=
    ⟨by simpa [hlength] using h.length, inRange_invariant.buckets hlength h.inRange, h.interval⟩

/-- The loop is left after finitely many rounds, with the index in range and the last rotation no
longer ago than the interval. -/
def RotatesInTime (age_buckets now : Int) (w : TimeWindowQuantiles CKMSQuantiles) : Prop :=
  ∃ rounds w', rotateLoop rounds (now - w.last_rotation_) w = some w' ∧
    w'.current_bucket_ < age_buckets ∧ now - w'.last_rotation_ ≤ w'.rotation_interval_

theorem Shape.rotatesInTime {k I : Int} {w : TimeWindowQuantiles CKMSQuantiles} (h : Shape k I w)
    (hI : 0 < I) (now : Int) : RotatesInTime k now w := by
  obtain ⟨w', hloop⟩ := rotateLoop_returns (now - w.last_rotation_).toNat
    (by rw [h.interval]; exact hI) (Int.self_le_toNat _)
  have hshape := (shape_invariant k I).rotateLoop _ h hloop
  have hcurrent := hshape.inRange
  have hlength := hshape.length
  unfold InRange at hcurrent
  exact ⟨_, w', hloop, by omega, rotateLoop_exit _ hloop⟩

end TimeWindowQuantiles

namespace Summary

open TimeWindowQuantiles

/-! ## The rotations of a call -/

/-- The rotations of `Collect`, each with what the clock reads and the window that is rotated. -/
def collectRotations (clock : Nat → Int) : (reading : Nat) → List CKMSQuantiles.Quantile →
    TimeWindowQuantiles CKMSQuantiles → List (Int × TimeWindowQuantiles CKMSQuantiles)
  | _, [], _ => []
  | reading, quantile :: rest, w =>
    (clock reading, w) ::
      match w.get (clock reading) quantile.quantile with
      | none => []
      | some (_, w) => collectRotations clock (reading + 1) rest w

def rotations (s : Summary) : Call → List (Int × TimeWindowQuantiles CKMSQuantiles)
  | .observe now _ => [(now, s.quantile_values_)]
  | .collect clock => collectRotations clock 0 s.quantiles_ s.quantile_values_

/-- The clock readings of a call. -/
def Call.readings (quantiles : List CKMSQuantiles.Quantile) : Call → List Int
  | .observe now _ => [now]
  | .collect clock => (List.range quantiles.length).map clock

/-- Clock readings that never go back, from `now` on. -/
def Monotone (quantiles : List CKMSQuantiles.Quantile) (now : Int) (calls : List Call) : Prop :=
  (now :: calls.flatMap (Call.readings quantiles)).Pairwise (· ≤ ·)

/-- The constructor does not divide by zero, and if it returns, every later call returns, and every
rotation it makes is left in time. -/
def RotationTerminates (max_age age_buckets : Int) : Prop :=
  ∀ quantiles t0,
    new quantiles max_age age_buckets t0 ≠ .error .divisionByZero ∧
    ∀ s₀, new quantiles max_age age_buckets t0 = .ok s₀ →
      ∀ calls call, Monotone quantiles t0 (calls ++ [call]) →
        ∃ s s', run s₀ calls = some s ∧ step s call = some s' ∧
          ∀ rotation ∈ s.rotations call, RotatesInTime age_buckets rotation.1 rotation.2

section Positive

variable {k I : Int} (hI : 0 < I)

include hI

theorem exists_get {w : TimeWindowQuantiles CKMSQuantiles} (h : Shape k I w) (now : Int)
    (q : Double) : ∃ r, w.get now q = some r ∧ Shape k I r.2 := by
  obtain ⟨w', hrot⟩ : ∃ w', w.rotate now = some w' :=
    rotateLoop_returns _ (by rw [h.interval]; exact hI) (Int.self_le_toNat _)
  obtain ⟨b, hb⟩ := ((shape_invariant k I).rotate h hrot).inRange.exists_bucket
  have hget : w.get now q = some ((Sketch.get q b).1,
      { w' with
        ckms_quantiles_ := w'.ckms_quantiles_.set w'.current_bucket_ (Sketch.get q b).2 }) := by
    simp only [TimeWindowQuantiles.get, hrot, hb, Option.bind_eq_bind, Option.bind_some]
  exact ⟨_, hget, (shape_invariant k I).get h hget⟩

theorem exists_collectLoop (clock : Nat → Int) (quantiles : List CKMSQuantiles.Quantile) :
    ∀ (reading : Nat) {w : TimeWindowQuantiles CKMSQuantiles}, Shape k I w →
      (∃ r, collectLoop clock reading quantiles w = some r) ∧
        ∀ rotation ∈ collectRotations clock reading quantiles w,
          RotatesInTime k rotation.1 rotation.2 := by
  induction quantiles with
  | nil => intro reading w _; exact ⟨⟨_, rfl⟩, nofun⟩
  | cons quantile rest ih =>
      intro reading w h
      obtain ⟨⟨value, w'⟩, hget, hshape⟩ := exists_get hI h (clock reading) quantile.quantile
      obtain ⟨⟨r, hrest⟩, hrotations⟩ := ih (reading + 1) hshape
      constructor
      · refine ⟨({ quantile := quantile.quantile, value } :: r.1, r.2), ?_⟩
        simp only [collectLoop, hget, hrest, Option.bind_eq_bind, Option.bind_some]
      · rw [collectRotations, hget]
        exact List.forall_mem_cons.mpr ⟨h.rotatesInTime hI _, hrotations⟩

/-- A call returns, and leaves the rotation loop in time. -/
theorem exists_step {s : Summary} (h : Shape k I s.quantile_values_) (call : Call) :
    (∃ s', step s call = some s') ∧
      ∀ rotation ∈ s.rotations call, RotatesInTime k rotation.1 rotation.2 := by
  cases call with
  | observe now value =>
      obtain ⟨w', hrot⟩ : ∃ w', s.quantile_values_.rotate now = some w' :=
        rotateLoop_returns _ (by rw [h.interval]; exact hI) (Int.self_le_toNat _)
      have hinsert : s.quantile_values_.insert now value = some
          { w' with ckms_quantiles_ := w'.ckms_quantiles_.map (Sketch.insert value) } := by
        simp only [TimeWindowQuantiles.insert, hrot, Option.bind_eq_bind, Option.bind_some]
      constructor
      · exact ⟨_, Option.bind_eq_some_iff.mpr ⟨_, hinsert, rfl⟩⟩
      · exact List.forall_mem_singleton.mpr (h.rotatesInTime hI now)
  | collect clock =>
      obtain ⟨⟨r, hloop⟩, hrotations⟩ := exists_collectLoop hI clock s.quantiles_ 0 h
      refine ⟨⟨{ s with quantile_values_ := r.2 }, ?_⟩, hrotations⟩
      simp only [step, collect, hloop, Option.bind_eq_bind, Option.bind_some, Option.map_some]

theorem exists_run (calls : List Call) : ∀ {s : Summary}, Shape k I s.quantile_values_ →
    ∃ s', run s calls = some s' := by
  induction calls with
  | nil => intro s _; exact ⟨s, rfl⟩
  | cons call calls ih =>
      intro s h
      obtain ⟨⟨s₁, hstep⟩, -⟩ := exists_step hI h call
      obtain ⟨s', hrest⟩ := ih (invariant_step (shape_invariant k I) h hstep)
      exact ⟨s', by rw [run, List.foldlM_cons, hstep]; exact hrest⟩

end Positive

/-! ## Which arguments are safe -/

theorem new_shape {quantiles : List CKMSQuantiles.Quantile} {max_age age_buckets t0 : Int}
    {s : Summary} (h : new quantiles max_age age_buckets t0 = .ok s) :
    Shape age_buckets ((max_age * ticksPerMillisecond).tdiv age_buckets) s.quantile_values_ := by
  have hrange := new_inRange h
  obtain ⟨hpos, rfl⟩ := new_eq_ok_iff.mp h
  have hcast : (age_buckets.toNat : Int) = age_buckets := Int.toNat_of_nonneg hpos.le
  refine ⟨?_, hrange, ?_⟩
  · simpa [TimeWindowQuantiles.new] using hcast
  · simp only [TimeWindowQuantiles.new, hcast]

theorem rotationTerminates_of_interval_pos {max_age age_buckets : Int} (hbuckets : age_buckets ≠ 0)
    (hI : 0 < age_buckets → 0 < (max_age * ticksPerMillisecond).tdiv age_buckets) :
    RotationTerminates max_age age_buckets := by
  intro quantiles t0
  constructor
  · unfold new
    rw [if_neg hbuckets]
    split <;> nofun
  · intro s₀ hnew calls call _
    have hI := hI (new_eq_ok_iff.mp hnew).1
    obtain ⟨s, hrun⟩ := exists_run hI calls (new_shape hnew)
    have hshape := invariant_run (shape_invariant _ _) calls (new_shape hnew) hrun
    obtain ⟨⟨s', hstep⟩, hrotations⟩ := exists_step hI hshape call
    exact ⟨s, s', hrun, hstep, hrotations⟩

/-- One tick after its construction the summary is stuck in the first observation. -/
theorem not_rotationTerminates_of_interval_nonpos {max_age age_buckets : Int}
    (hpos : 0 < age_buckets) (hI : (max_age * ticksPerMillisecond).tdiv age_buckets ≤ 0) :
    ¬ RotationTerminates max_age age_buckets := by
  intro h
  have hnew : new [] max_age age_buckets 0 = .ok _ := new_eq_ok_iff.mpr ⟨hpos, rfl⟩
  have hclock : Monotone [] 0 ([] ++ [.observe 1 (.fin 0)]) := by
    simp [Monotone, Call.readings]
  obtain ⟨s, s', hrun, hstep, hrotations⟩ := (h [] 0).2 _ hnew [] (.observe 1 (.fin 0)) hclock
  obtain rfl := Option.some.inj hrun
  have hinterval := (new_shape hnew).interval
  obtain ⟨rounds, w', hloop, -⟩ := hrotations _ List.mem_cons_self
  rw [rotateLoop_diverges] at hloop
  · cases hloop
  · rw [hinterval]
    exact hI
  · rw [hinterval]
    simp only [TimeWindowQuantiles.new]
    omega

theorem not_rotationTerminates_of_no_buckets (max_age : Int) : ¬ RotationTerminates max_age 0 :=
  fun h => (h [] 0).1 rfl

/-- The division by the number of buckets leaves a tick exactly if there is one for each bucket. -/
theorem tdiv_pos_iff {a b : Int} (hb : 0 < b) : 0 < a.tdiv b ↔ b ≤ a := by
  constructor
  · intro h
    by_contra hlt
    have hmono := Int.tdiv_le_tdiv hb (show a ≤ b - 1 from by omega)
    have hzero : (b - 1).tdiv b = 0 := Int.tdiv_eq_zero_of_lt (by omega) (by omega)
    omega
  · intro h
    have hone : 1 ≤ a.tdiv b := Int.le_tdiv_of_mul_le hb (by omega)
    omega

/-- The arguments are safe if and only if the constructor refuses them, or there is a bucket and at
least a tick of `max_age` for each. -/
theorem rotation_terminates_iff (max_age age_buckets : Int) :
    RotationTerminates max_age age_buckets ↔
      age_buckets < 0 ∨ 0 < age_buckets ∧ age_buckets ≤ max_age * ticksPerMillisecond := by
  rcases lt_trichotomy age_buckets 0 with hneg | rfl | hpos
  · exact iff_of_true (rotationTerminates_of_interval_pos hneg.ne fun h => by omega) (.inl hneg)
  · exact iff_of_false (not_rotationTerminates_of_no_buckets max_age) (by omega)
  · rw [← tdiv_pos_iff hpos, or_iff_right hpos.not_gt, and_iff_right hpos]
    constructor
    · intro h
      by_contra hI
      exact not_rotationTerminates_of_interval_nonpos hpos (not_lt.mp hI) h
    · exact fun hI => rotationTerminates_of_interval_pos hpos.ne' fun _ => hI

/-- With no age the interval is zero, and with no buckets there is none. -/
theorem rotation_not_always_terminates :
    ¬ RotationTerminates 0 5 ∧ ¬ RotationTerminates 60000 0 := by
  constructor
  · exact not_rotationTerminates_of_interval_nonpos (by decide) (by decide)
  · exact not_rotationTerminates_of_no_buckets 60000

/-! ## Which summaries can be collected -/

/-- Collecting the summary returns at any time: it has no quantile to report, so that it does not
rotate its window, or the rotation interval is at least a tick. -/
def Collectable (s : Summary) : Prop :=
  s.quantiles_ = [] ∨ 0 < s.quantile_values_.rotation_interval_

instance (s : Summary) : Decidable s.Collectable := by
  unfold Collectable
  infer_instance

theorem collect_isSome_iff {s : Summary} (h : s.quantile_values_.InRange) :
    (∀ clock, (s.collect clock).isSome) ↔ s.Collectable := by
  constructor
  · intro hreturns
    by_contra hnot
    obtain ⟨hquantiles, hI⟩ := not_or.mp hnot
    obtain ⟨quantile, rest, hcons⟩ := List.exists_cons_of_ne_nil hquantiles
    -- A tick after the last rotation the loop of the first query does not end.
    have hstuck : s.quantile_values_.rotate (s.quantile_values_.last_rotation_ + 1) = none :=
      rotateLoop_diverges _ (not_lt.mp hI) (by omega)
    have := hreturns fun _ => s.quantile_values_.last_rotation_ + 1
    simp [collect, hcons, collectLoop, TimeWindowQuantiles.get, hstuck] at this
  · rintro (hnil | hI) clock
    · simp [collect, hnil, collectLoop]
    · obtain ⟨⟨r, hloop⟩, -⟩ := exists_collectLoop hI clock s.quantiles_ 0
        (⟨rfl, h, rfl⟩ : Shape _ _ s.quantile_values_)
      simp [collect, hloop]

/-- The arguments of the constructor decide, since no call changes the quantiles or the interval. -/
theorem new_collectable_iff {quantiles : List CKMSQuantiles.Quantile}
    {max_age age_buckets t0 : Int} {s : Summary}
    (h : new quantiles max_age age_buckets t0 = .ok s) :
    s.Collectable ↔ quantiles = [] ∨ age_buckets ≤ max_age * ticksPerMillisecond := by
  have hinterval := (new_shape h).interval
  obtain ⟨hpos, hs⟩ := new_eq_ok_iff.mp h
  have hquantiles : s.quantiles_ = quantiles := by rw [← hs]
  rw [Collectable, hinterval, hquantiles, tdiv_pos_iff hpos]

theorem step_collectable_iff {s s' : Summary} {call : Call} (h : s.quantile_values_.InRange)
    (hstep : step s call = some s') : s'.Collectable ↔ s.Collectable := by
  have hinterval : s'.quantile_values_.rotation_interval_ = s.quantile_values_.rotation_interval_ :=
    (invariant_step (shape_invariant _ _) ⟨rfl, h, rfl⟩ hstep).interval
  have hquantiles : s'.quantiles_ = s.quantiles_ := by
    cases call with
    | observe now value =>
        obtain ⟨w, -, hs'⟩ := Option.bind_eq_some_iff.mp hstep
        rw [← Option.some.inj hs']
    | collect clock =>
        obtain ⟨⟨metric, s₁⟩, hcollect, rfl⟩ := Option.map_eq_some_iff.mp hstep
        obtain ⟨⟨quantile, w⟩, -, hr⟩ := Option.bind_eq_some_iff.mp hcollect
        obtain ⟨-, rfl⟩ := Prod.mk.inj (Option.some.inj hr)
        rfl
  rw [Collectable, Collectable, hinterval, hquantiles]

end Summary

end PrometheusCpp
