/-
# PrometheusCpp.Core.SummaryWindow -- what a summary returns after a whole run

A call on a summary is one insertion into the sliding window or one query for each quantile
(`step_timed`). The bucket that a query reads is what a new sketch becomes by the calls that the
window made on it (`get_replay`). So what `Collect` returns after any calls is a function of these
calls alone (`reported`): the number and the sum of all observations, and for each quantile what a
new sketch answers to which the observations in the window have been given (`run_collect_window`).
-/
import PrometheusCpp.Core.CkmsRepresentation
import PrometheusCpp.Core.SummaryRotation
import PrometheusCpp.Core.TimeWindowContents

namespace PrometheusCpp

namespace TimeWindowQuantiles

/-! ## What holds of every bucket -/

/-- A property of buckets that the calls of the ring keep. -/
structure SketchInvariant {σ : Type} [Sketch σ] (P : σ → Prop) : Prop where
  insert : ∀ {b} value, P b → P (Sketch.insert value b)
  get : ∀ {b} q, P b → P (Sketch.get q b).2
  reset : ∀ {b}, P b → P (Sketch.reset b)

section Everywhere

variable {σ : Type} [Sketch σ] {P : σ → Prop} (hP : SketchInvariant P)

def Everywhere (P : σ → Prop) (w : TimeWindowQuantiles σ) : Prop := ∀ b ∈ w.ckms_quantiles_, P b

include hP

theorem Everywhere.rotateOnce {w : TimeWindowQuantiles σ} (h : Everywhere P w) :
    Everywhere P w.rotateOnce := by
  intro b hb
  obtain ⟨i, hi, rfl⟩ := List.mem_iff_getElem.mp hb
  have hbefore := h _ (List.getElem_mem (by simpa [TimeWindowQuantiles.rotateOnce] using hi))
  simp only [TimeWindowQuantiles.rotateOnce, List.getElem_modify]
  split
  · exact hP.reset hbefore
  · exact hbefore

theorem Everywhere.rotateLoop (rounds : Nat) : ∀ {delta : Int} {w w' : TimeWindowQuantiles σ},
    Everywhere P w → TimeWindowQuantiles.rotateLoop rounds delta w = some w' → Everywhere P w' := by
  induction rounds with
  | zero =>
      intro delta w w' h hloop
      rw [TimeWindowQuantiles.rotateLoop] at hloop
      split at hloop
      · cases hloop
      · exact Option.some.inj hloop ▸ h
  | succ rounds ih =>
      intro delta w w' h hloop
      rw [TimeWindowQuantiles.rotateLoop] at hloop
      split at hloop
      · exact ih (h.rotateOnce hP) hloop
      · exact Option.some.inj hloop ▸ h

theorem Everywhere.step {w w' : TimeWindowQuantiles σ} {call : TimedCall} (h : Everywhere P w)
    (hstep : TimeWindowQuantiles.step w call = some w') : Everywhere P w' := by
  obtain ⟨now, call⟩ := call
  cases call with
  | insert value =>
      obtain ⟨w₁, hrotate, heq⟩ := Option.bind_eq_some_iff.mp hstep
      have h₁ : Everywhere P w₁ := h.rotateLoop hP _ hrotate
      rw [← Option.some.inj heq]
      exact List.forall_mem_map.mpr fun b hb => hP.insert value (h₁ b hb)
  | get q =>
      obtain ⟨r, hget, rfl⟩ := Option.map_eq_some_iff.mp hstep
      obtain ⟨w₁, hrotate, hbucket⟩ := Option.bind_eq_some_iff.mp hget
      obtain ⟨bucket, hcurrent, heq⟩ := Option.bind_eq_some_iff.mp hbucket
      have h₁ : Everywhere P w₁ := h.rotateLoop hP _ hrotate
      rw [← Option.some.inj heq]
      intro b hb
      rcases List.mem_or_eq_of_mem_set hb with hb | rfl
      · exact h₁ b hb
      · exact hP.get q (h₁ bucket (List.mem_of_getElem? hcurrent))

theorem Everywhere.run (calls : List TimedCall) : ∀ {w w' : TimeWindowQuantiles σ},
    Everywhere P w → TimeWindowQuantiles.run w calls = some w' → Everywhere P w' := by
  induction calls with
  | nil => intro w w' h hrun; exact Option.some.inj hrun ▸ h
  | cons call calls ih =>
      intro w w' h hrun
      obtain ⟨w₁, hstep, hrest⟩ := Option.bind_eq_some_iff.mp hrun
      exact ih (h.step hP hstep) hrest

end Everywhere

/-- A sketch with the log of what it was given. -/
def Logged (targets : List CKMSQuantiles.Target) (b : CKMSQuantiles × List Number) : Prop :=
  CKMSQuantiles.Inv targets b.1 b.2

theorem logged_invariant (targets : List CKMSQuantiles.Target) :
    SketchInvariant (Logged targets) where
  insert value h := CKMSQuantiles.Inv.insert h value
  get _ h := CKMSQuantiles.Inv.flush h
  reset h := CKMSQuantiles.Inv.reset h

/-- What a query reads is a sketch of exactly the values in its log. -/
theorem read_logged {targets : List CKMSQuantiles.Target} {max_age t0 t : Int} {k : Nat}
    {calls : List TimedCall} {w : TimeWindowQuantiles (CKMSQuantiles × List Number)}
    {sketch : CKMSQuantiles} {log : List Number}
    (hrun : run (new (CKMSQuantiles.new (targets.map CKMSQuantiles.Target.toQuantile), []) max_age k
      t0) calls = some w)
    (hread : w.bucketAt t = some (sketch, log)) : CKMSQuantiles.Inv targets sketch log := by
  obtain ⟨w', hrotate, hcurrent⟩ := Option.bind_eq_some_iff.mp hread
  have hall : Everywhere (Logged targets) w := by
    refine Everywhere.run (logged_invariant targets) _ (fun b hb => ?_) hrun
    rw [List.eq_of_mem_replicate hb]
    exact CKMSQuantiles.inv_new targets
  exact hall.rotateLoop (logged_invariant targets) _ hrotate _ (List.mem_of_getElem? hcurrent)

/-! ## The calls on a bucket, made anew -/

def Call.onSketch : Call → CKMSQuantiles.Call
  | .insert value => .insert value
  | .get q => .get q

theorem inserted_onSketch (calls : List Call) :
    CKMSQuantiles.inserted (calls.map Call.onSketch) = inserted calls := by
  induction calls using List.reverseRecOn with
  | nil => rfl
  | append_singleton calls call ih =>
      rw [List.map_append, CKMSQuantiles.inserted, List.foldl_append, ← CKMSQuantiles.inserted, ih,
        inserted, inserted, List.filterMap_append]
      cases call with
      | insert value => rfl
      | get q => exact (List.append_nil _).symm

/-- A sketch that its log makes of a new one. -/
def Replayed (quantiles : List CKMSQuantiles.Quantile) (b : CKMSQuantiles × List Call) : Prop :=
  b.1 = CKMSQuantiles.run quantiles (b.2.map Call.onSketch)

theorem replayed_invariant (quantiles : List CKMSQuantiles.Quantile) :
    SketchInvariant (Replayed quantiles) where
  insert {b} value h := by
    obtain ⟨sketch, calls⟩ := b
    obtain rfl : sketch = CKMSQuantiles.run quantiles (calls.map Call.onSketch) := h
    simp [Replayed, Sketch.insert, CKMSQuantiles.run, Call.onSketch, CKMSQuantiles.step]
  get {b} q h := by
    obtain ⟨sketch, calls⟩ := b
    obtain rfl : sketch = CKMSQuantiles.run quantiles (calls.map Call.onSketch) := h
    simp [Replayed, Sketch.get, CKMSQuantiles.run, Call.onSketch, CKMSQuantiles.step]
  reset {b} h := by
    obtain ⟨sketch, calls⟩ := b
    obtain rfl : sketch = CKMSQuantiles.run quantiles (calls.map Call.onSketch) := h
    show CKMSQuantiles.new (CKMSQuantiles.run quantiles _).quantiles_ = CKMSQuantiles.new quantiles
    rw [CKMSQuantiles.run_quantiles]

/-- The sketch that a query at time `t` reads after these calls on the window. -/
def replay (quantiles : List CKMSQuantiles.Quantile) (t0 I : Int) (k : Nat) (calls : List TimedCall)
    (t : Int) : CKMSQuantiles :=
  CKMSQuantiles.run quantiles ((windowCalls t0 I k calls t).map Call.onSketch)

/-- Under any clock, a query that returns answers from this sketch. -/
theorem get_replay {quantiles : List CKMSQuantiles.Quantile} {max_age t0 t : Int} {k : Nat}
    (hk : 0 < k) {calls : List TimedCall} {w w' : TimeWindowQuantiles CKMSQuantiles}
    {q answer : Double} (hrun : run (new (CKMSQuantiles.new quantiles) max_age k t0) calls = some w)
    (hget : w.get t q = some (answer, w')) :
    answer = ((replay quantiles t0 (max_age.tdiv k) k calls t).get q).1 := by
  -- Through the ring whose buckets log all calls.
  rw [← new_mapBuckets (Prod.fst : CKMSQuantiles × List Call → CKMSQuantiles)
    (CKMSQuantiles.new quantiles, []), run_mapBuckets fst_calls_sketchHom] at hrun
  obtain ⟨w₁, hrun₁, rfl⟩ := Option.map_eq_some_iff.mp hrun
  have hfst := get_fst (w₁.mapBuckets Prod.fst) t q
  rw [hget, bucketAt_mapBuckets fst_calls_sketchHom, Option.map_some] at hfst
  obtain ⟨sketch, hmap, rfl⟩ := Option.map_eq_some_iff.mp hfst.symm
  obtain ⟨⟨bucket, made⟩, hbucket, rfl⟩ := Option.map_eq_some_iff.mp hmap
  obtain ⟨w₂, hrotate, hcurrent⟩ := Option.bind_eq_some_iff.mp hbucket
  obtain ⟨b, hb, hmade⟩ := read_windowCalls hk hrun₁ hrotate
  obtain rfl : b = (bucket, made) := Option.some.inj (hb.symm.trans hcurrent)
  have hall : Everywhere (Replayed quantiles) w₂ := by
    refine Everywhere.rotateLoop (replayed_invariant quantiles) _
      (Everywhere.run (replayed_invariant quantiles) _ (fun b hb => ?_) hrun₁) hrotate
    rw [List.eq_of_mem_replicate hb]
    rfl
  have hsketch : bucket = _ := hall _ (List.mem_of_getElem? hcurrent)
  rw [replay, ← hmade, ← hsketch]
  rfl

end TimeWindowQuantiles

namespace Summary

open TimeWindowQuantiles BucketRing

/-! ## The window's calls -/

/-- The queries of `Collect`, from a reading on. -/
def gets (clock : Nat → Int) : (reading : Nat) → List CKMSQuantiles.Quantile → List TimedCall
  | _, [] => []
  | reading, quantile :: rest =>
    ⟨clock reading, .get quantile.quantile⟩ :: gets clock (reading + 1) rest

/-- What a call comes down to at the window. -/
def Call.timed (quantiles : List CKMSQuantiles.Quantile) : Call → List TimedCall
  | .observe now value => [⟨now, .insert value⟩]
  | .collect clock => gets clock 0 quantiles

/-- The observations of a run: when they were made and what was observed. -/
def observations (calls : List Call) : List (Int × Number) :=
  calls.filterMap fun
    | .observe now value => some (now, value)
    | .collect _ => none

theorem map_now_gets (clock : Nat → Int) (quantiles : List CKMSQuantiles.Quantile) :
    ∀ reading, (gets clock reading quantiles).map TimedCall.now =
      (List.range' reading quantiles.length).map clock := by
  induction quantiles with
  | nil => intro reading; rfl
  | cons quantile rest ih =>
      intro reading
      rw [gets, List.map_cons, ih, List.length_cons, List.range'_succ, List.map_cons]

theorem map_now_timed (quantiles : List CKMSQuantiles.Quantile) (calls : List Call) :
    (calls.flatMap (Call.timed quantiles)).map TimedCall.now =
      calls.flatMap (Call.readings quantiles) := by
  rw [List.map_flatMap]
  refine List.flatMap_congr fun call _ => ?_
  cases call with
  | observe now value => rfl
  | collect clock => rw [Call.timed, map_now_gets, Call.readings, List.range_eq_range']

theorem observations_gets (clock : Nat → Int) (quantiles : List CKMSQuantiles.Quantile) :
    ∀ reading, TimeWindowQuantiles.observations (gets clock reading quantiles) = [] := by
  induction quantiles with
  | nil => intro reading; rfl
  | cons quantile rest ih => intro reading; exact ih (reading + 1)

theorem observations_timed (quantiles : List CKMSQuantiles.Quantile) (calls : List Call) :
    TimeWindowQuantiles.observations (calls.flatMap (Call.timed quantiles)) =
      observations calls := by
  induction calls with
  | nil => rfl
  | cons call calls ih =>
      rw [List.flatMap_cons, TimeWindowQuantiles.observations, List.filterMap_append]
      show TimeWindowQuantiles.observations _ ++ TimeWindowQuantiles.observations _ = _
      rw [ih]
      cases call with
      | observe now value => rfl
      | collect clock =>
          rw [Call.timed, observations_gets]
          rfl

theorem collectLoop_timed (clock : Nat → Int) (quantiles : List CKMSQuantiles.Quantile) :
    ∀ reading (w : TimeWindowQuantiles CKMSQuantiles),
      (collectLoop clock reading quantiles w).map Prod.snd =
        TimeWindowQuantiles.run w (gets clock reading quantiles) := by
  induction quantiles with
  | nil => intro reading w; rfl
  | cons quantile rest ih =>
      intro reading w
      rw [collectLoop]
      show Option.map Prod.snd (Option.bind (w.get (clock reading) quantile.quantile) _) =
        (Option.map Prod.snd (w.get (clock reading) quantile.quantile)).bind fun w' =>
          TimeWindowQuantiles.run w' (gets clock (reading + 1) rest)
      cases w.get (clock reading) quantile.quantile with
      | none => rfl
      | some r =>
          rw [Option.map_some, Option.bind_some, Option.bind_some, ← ih]
          show Option.map Prod.snd (Option.bind (collectLoop clock (reading + 1) rest r.2) _) = _
          cases collectLoop clock (reading + 1) rest r.2 <;> rfl

theorem step_timed (s : Summary) (call : Call) :
    (s.step call).map quantile_values_ =
      TimeWindowQuantiles.run s.quantile_values_ (call.timed s.quantiles_) := by
  cases call with
  | observe now value =>
      show Option.map _ (Option.bind (s.quantile_values_.insert now value) _) =
        (s.quantile_values_.insert now value).bind some
      cases s.quantile_values_.insert now value <;> rfl
  | collect clock =>
      rw [Call.timed, ← collectLoop_timed]
      show Option.map _ (Option.map _ (Option.bind (collectLoop clock 0 _ _) _)) = _
      cases collectLoop clock 0 s.quantiles_ s.quantile_values_ <;> rfl

theorem step_fields {s s' : Summary} {call : Call} (h : s.step call = some s') :
    s'.quantiles_ = s.quantiles_ ∧ s'.count_ = s.count_ + (observations [call]).length ∧
      s'.sum_ = (observations [call]).foldl (fun sum o => sum + .num o.2) s.sum_ := by
  cases call with
  | observe now value =>
      obtain ⟨w, -, hs'⟩ := Option.bind_eq_some_iff.mp h
      rw [← Option.some.inj hs']
      exact ⟨rfl, rfl, rfl⟩
  | collect clock =>
      obtain ⟨⟨metric, s₁⟩, hcollect, rfl⟩ := Option.map_eq_some_iff.mp h
      obtain ⟨⟨quantile, w⟩, -, hr⟩ := Option.bind_eq_some_iff.mp hcollect
      rw [← (Prod.mk.inj (Option.some.inj hr)).2]
      exact ⟨rfl, rfl, rfl⟩

/-- Every observation of a run is counted and added once. -/
theorem run_fields (calls : List Call) : ∀ {s s' : Summary}, s.run calls = some s' →
    s'.quantiles_ = s.quantiles_ ∧ s'.count_ = s.count_ + (observations calls).length ∧
      s'.sum_ = (observations calls).foldl (fun sum o => sum + .num o.2) s.sum_ := by
  induction calls with
  | nil => intro s s' h; exact Option.some.inj h ▸ ⟨rfl, rfl, rfl⟩
  | cons call calls ih =>
      intro s s' h
      obtain ⟨s₁, hstep, hrest⟩ := Option.bind_eq_some_iff.mp h
      obtain ⟨hquantiles, hcount, hsum⟩ := step_fields hstep
      obtain ⟨hquantiles', hcount', hsum'⟩ := ih hrest
      have happend : observations (call :: calls) = observations [call] ++ observations calls :=
        List.filterMap_append (l := [call])
      refine ⟨hquantiles'.trans hquantiles, ?_, ?_⟩
      · rw [hcount', hcount, happend, List.length_append, Nat.add_assoc]
      · rw [hsum', hsum, happend, List.foldl_append]

/-- At the window, a run is a run of insertions and queries. -/
theorem run_timed (calls : List Call) : ∀ s : Summary,
    (s.run calls).map quantile_values_ =
      TimeWindowQuantiles.run s.quantile_values_ (calls.flatMap (Call.timed s.quantiles_)) := by
  induction calls with
  | nil => intro s; rfl
  | cons call calls ih =>
      intro s
      rw [List.flatMap_cons, TimeWindowQuantiles.run, List.foldlM_append, ← TimeWindowQuantiles.run,
        ← step_timed]
      show Option.map _ (Option.bind (s.step call) _) = Option.bind (Option.map _ (s.step call)) _
      cases hstep : s.step call with
      | none => rfl
      | some s' =>
          rw [Option.bind_some, Option.map_some, Option.bind_some, ← (step_fields hstep).1]
          exact ih s'

/-! ## What the queries return -/

/-- The calls on the window in front of query `i` of a `Collect`. -/
def asked (quantiles : List CKMSQuantiles.Quantile) (calls : List Call) (clock : Nat → Int)
    (i : Nat) : List TimedCall :=
  calls.flatMap (Call.timed quantiles) ++ gets clock 0 (quantiles.take i)

/-- What `Collect` returns after the calls, if they and it return. -/
def reported (quantiles : List CKMSQuantiles.Quantile) (t0 I : Int) (k : Nat) (calls : List Call)
    (clock : Nat → Int) : ClientMetric where
  summary :=
    { sample_count := (observations calls).length
      sample_sum := (observations calls).foldl (fun sum o => sum + .num o.2) 0
      quantile := quantiles.mapIdx fun i q =>
        { quantile := q.quantile
          value := ((replay quantiles t0 I k (asked quantiles calls clock i) (clock i)).get
            q.quantile).1 } }

section Window

variable {quantiles : List CKMSQuantiles.Quantile} {max_age t0 : Int} {k : Nat}

/-- Each query of `Collect` reads the clock anew, and comes after those in front of it. -/
theorem collectLoop_replay (hk : 0 < k) (clock : Nat → Int) (rest : List CKMSQuantiles.Quantile) :
    ∀ {reading : Nat} {made : List TimedCall} {w w' : TimeWindowQuantiles CKMSQuantiles}
      {answers : List ClientMetric.Quantile},
      TimeWindowQuantiles.run (.new (CKMSQuantiles.new quantiles) max_age k t0) made = some w →
      collectLoop clock reading rest w = some (answers, w') →
      answers = rest.mapIdx fun i q =>
        { quantile := q.quantile
          value := ((replay quantiles t0 (max_age.tdiv k) k (made ++ gets clock reading (rest.take i))
            (clock (reading + i))).get q.quantile).1 } := by
  induction rest with
  | nil => intro reading made w w' answers _ hloop; exact (Prod.mk.inj (Option.some.inj hloop)).1.symm
  | cons q rest ih =>
      intro reading made w w' answers hrun hloop
      obtain ⟨⟨answer, w₁⟩, hget, hmore⟩ := Option.bind_eq_some_iff.mp hloop
      obtain ⟨⟨answers', w₂⟩, hrest, hr⟩ := Option.bind_eq_some_iff.mp hmore
      obtain rfl : _ = answers := (Prod.mk.inj (Option.some.inj hr)).1
      have hrun₁ : TimeWindowQuantiles.run (.new (CKMSQuantiles.new quantiles) max_age k t0)
          (made ++ [⟨clock reading, .get q.quantile⟩]) = some w₁ := by
        rw [TimeWindowQuantiles.run, List.foldlM_append, ← TimeWindowQuantiles.run, hrun]
        show Option.bind (Option.map Prod.snd (w.get (clock reading) q.quantile)) _ = _
        rw [hget]
        rfl
      rw [List.mapIdx_cons, ih hrun₁ hrest, get_replay hk hrun hget]
      simp [gets, Nat.add_assoc, Nat.add_comm 1]

/-- After any calls, under any clock, `Collect` returns what is reported, if the calls and it return;
they do if there is a tick for each bucket. With a clock that never goes back, the sketch behind an
answer has been given the values observed with fewer than `age_buckets` rotation boundaries between
them and the reading. -/
theorem run_collect_window {age_buckets : Int} {s₀ : Summary}
    (hnew : new quantiles max_age age_buckets t0 = .ok s₀) (calls : List Call) (clock : Nat → Int) :
    let I := (max_age * ticksPerMillisecond).tdiv age_buckets
    (age_buckets ≤ max_age * ticksPerMillisecond →
      ∃ s r, s₀.run calls = some s ∧ s.collect clock = some r) ∧
    (∀ s r, s₀.run calls = some s → s.collect clock = some r →
      r.1 = reported quantiles t0 I age_buckets.toNat calls clock) ∧
    (0 < I → Monotone quantiles t0 (calls ++ [.collect clock]) → ∀ i < quantiles.length,
      inserted (windowCalls t0 I age_buckets.toNat (asked quantiles calls clock i) (clock i)) =
        (window t0 I age_buckets.toNat (clock i) (observations calls)).map Prod.snd) := by
  intro I
  obtain ⟨hpos, hs₀⟩ := new_eq_ok_iff.mp hnew
  have hcast : (age_buckets.toNat : Int) = age_buckets := Int.toNat_of_nonneg hpos.le
  have hk : 0 < age_buckets.toNat := by omega
  refine ⟨fun hage => ?_, fun s r hrun hcollect => ?_, fun hI hmono i hi => ?_⟩
  · have hI := (tdiv_pos_iff hpos).mpr hage
    obtain ⟨s, hrun⟩ := exists_run hI calls (new_shape hnew)
    have hshape := invariant_run (shape_invariant _ _) calls (new_shape hnew) hrun
    have hcollectable : s.Collectable := .inr (by rw [hshape.interval]; exact hI)
    obtain ⟨r, hr⟩ := Option.isSome_iff_exists.mp
      ((collect_isSome_iff hshape.inRange).mpr hcollectable clock)
    exact ⟨s, r, hrun, hr⟩
  · obtain ⟨⟨answers, w'⟩, hloop, hr⟩ := Option.bind_eq_some_iff.mp hcollect
    obtain ⟨hsame, hcount, hsum⟩ := run_fields calls hrun
    have hmade := run_timed calls s₀
    rw [hrun, Option.map_some, ← hs₀] at hmade
    rw [← hs₀] at hsame hcount hsum
    rw [hsame] at hloop
    have hanswers := collectLoop_replay hk clock quantiles hmade.symm hloop
    simp only [hcast, Nat.zero_add] at hanswers
    rw [← Option.some.inj hr, reported, hcount, hsum, hanswers, Nat.zero_add]
    rfl
  · -- The readings in front of query `i`, and its own.
    have hreadings : (t0 :: (asked quantiles calls clock i).map TimedCall.now ++ [clock i]).Sublist
        (t0 :: (calls ++ [Call.collect clock]).flatMap (Call.readings quantiles)) := by
      have htake : (quantiles.take i).length = i := List.length_take_of_le hi.le
      rw [asked, List.map_append, map_now_timed, map_now_gets, htake, List.flatMap_append,
        List.flatMap_singleton, List.cons_append, List.append_assoc]
      refine ((List.Sublist.refl _).append ?_).cons_cons t0
      show (_ ++ [clock i]).Sublist ((List.range quantiles.length).map clock)
      rw [← List.range_eq_range', ← List.map_singleton, ← List.map_append, ← List.range_succ]
      exact (List.range_sublist.mpr hi).map clock
    have hsorted := List.Pairwise.sublist hreadings hmono
    rw [List.cons_append, ← List.cons_append, List.pairwise_append] at hsorted
    rw [inserted_windowCalls hI hsorted.1 fun now hnow => hsorted.2.2 now hnow _ List.mem_cons_self,
      asked, TimeWindowQuantiles.observations, List.filterMap_append]
    show (window _ _ _ _ (TimeWindowQuantiles.observations _ ++
      TimeWindowQuantiles.observations _)).map Prod.snd = _
    rw [observations_timed, observations_gets, List.append_nil]

/-- NaN for no values, else one of them. -/
def Answers (values : List Number) (answer : Double) : Prop :=
  (values = [] ∧ answer = .nan) ∨ ∃ v ∈ values, answer = .num v

/-- The sketch behind an answer answers with one of the values it was given. -/
theorem replay_answers (targets : List CKMSQuantiles.Target) (t0 I : Int) (k : Nat)
    (calls : List TimedCall) (t : Int) (q : Double) :
    Answers (inserted (windowCalls t0 I k calls t))
      ((replay (targets.map CKMSQuantiles.Target.toQuantile) t0 I k calls t).get q).1 := by
  rw [← inserted_onSketch]
  exact (CKMSQuantiles.run_inv targets _).get_cases q

/-- The median, with a tolerance of a tenth. -/
def median : CKMSQuantiles.Target where
  quantile := 1 / 2
  error := 1 / 10
  quantile_pos := one_half_pos
  quantile_lt_one := one_half_lt_one
  error_nonneg := one_div_nonneg.mpr (Nat.ofNat_nonneg 10)

/-- Two buckets over ten milliseconds: after twelve of them the first observation is out of the
window, the second one is in it, and so is the third one, although the clock went back in front of
it, because a rotation is not undone. -/
theorem run_collect_window_of_two : ∃ s₀, new [median.toQuantile] 10 2 0 = .ok s₀ ∧
    ∃ s r, s₀.run [.observe 1 (.fin 1), .observe 6000000 (.fin 2), .observe 4000000 (.fin 4)] =
        some s ∧ s.collect (fun _ => 12000000) = some r ∧
      r.1.summary = { sample_count := 3, sample_sum := .ofRat 7
                      quantile := [⟨.ofRat (1 / 2), .ofRat 2⟩] } := by
  have hnew : new [median.toQuantile] 10 2 0 = .ok _ := rfl
  refine ⟨_, hnew, ?_⟩
  obtain ⟨hreturns, hreported, -⟩ := run_collect_window hnew
    [.observe 1 (.fin 1), .observe 6000000 (.fin 2), .observe 4000000 (.fin 4)]
    fun _ => 12000000
  obtain ⟨s, r, hrun, hcollect⟩ := hreturns (by decide)
  refine ⟨s, r, hrun, hcollect, ?_⟩
  rw [hreported s r hrun hcollect]
  decide +kernel

end Window

end Summary

end PrometheusCpp
