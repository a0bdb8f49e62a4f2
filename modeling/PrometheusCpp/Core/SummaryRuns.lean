/-
# PrometheusCpp.Core.SummaryRuns -- what the calls of a summary keep of its window

A call changes the window by rounds of the rotation loop and by replacing buckets, never their
number. What both keep holds after every run (`Invariant.run`).
-/
import PrometheusCpp.Core.Summary

namespace PrometheusCpp

namespace TimeWindowQuantiles

/-! ## Invariants of the window -/

structure Invariant {σ : Type} [Sketch σ] (P : TimeWindowQuantiles σ → Prop) : Prop where
  rotateOnce : ∀ {w}, P w → P w.rotateOnce
  buckets : ∀ {w : TimeWindowQuantiles σ} {buckets : List σ},
    buckets.length = w.ckms_quantiles_.length → P w → P { w with ckms_quantiles_ := buckets }

section Invariant

variable {σ : Type} [Sketch σ] {P : TimeWindowQuantiles σ → Prop} (hP : Invariant P)
  {w w' : TimeWindowQuantiles σ}

include hP

theorem Invariant.rotateLoop (rounds : Nat) : ∀ {delta : Int} {w : TimeWindowQuantiles σ}, P w →
    TimeWindowQuantiles.rotateLoop rounds delta w = some w' → P w' := by
  induction rounds with
  | zero =>
      intro delta w h hloop
      rw [TimeWindowQuantiles.rotateLoop] at hloop
      split at hloop
      · cases hloop
      · exact Option.some.inj hloop ▸ h
  | succ rounds ih =>
      intro delta w h hloop
      rw [TimeWindowQuantiles.rotateLoop] at hloop
      split at hloop
      · exact ih (hP.rotateOnce h) hloop
      · exact Option.some.inj hloop ▸ h

theorem Invariant.rotate (h : P w) {now : Int} (hrot : w.rotate now = some w') : P w' :=
  hP.rotateLoop _ h hrot

theorem Invariant.insert (h : P w) {now : Int} {value : Number}
    (hinsert : w.insert now value = some w') : P w' := by
  obtain ⟨w₁, hrot, hw'⟩ := Option.bind_eq_some_iff.mp hinsert
  rw [← Option.some.inj hw']
  exact hP.buckets (List.length_map _) (hP.rotate h hrot)

theorem Invariant.get (h : P w) {now : Int} {q : Double} {r : Double × TimeWindowQuantiles σ}
    (hget : w.get now q = some r) : P r.2 := by
  obtain ⟨w₁, hrot, hrest⟩ := Option.bind_eq_some_iff.mp hget
  obtain ⟨b, -, hr⟩ := Option.bind_eq_some_iff.mp hrest
  rw [← Option.some.inj hr]
  exact hP.buckets List.length_set (hP.rotate h hrot)

end Invariant

/-- The index is in range. -/
def InRange (w : TimeWindowQuantiles CKMSQuantiles) : Prop :=
  w.current_bucket_ < w.ckms_quantiles_.length

theorem inRange_invariant : Invariant InRange where
  rotateOnce h := by
    unfold InRange TimeWindowQuantiles.rotateOnce at *
    simp only [List.length_modify]
    split <;> omega
  buckets hlength h := by
    unfold InRange at *
    simpa [hlength] using h

theorem InRange.exists_bucket {w : TimeWindowQuantiles CKMSQuantiles} (h : w.InRange) :
    ∃ b, w.currentBucket = some b :=
  ⟨_, List.getElem?_eq_getElem h⟩

end TimeWindowQuantiles

/-! ## Runs of a summary -/

namespace Summary

open TimeWindowQuantiles

/-- A constructor call that returns has at least one bucket and starts with the first. -/
theorem new_eq_ok_iff {quantiles : List CKMSQuantiles.Quantile} {max_age age_buckets now : Int}
    {s : Summary} : new quantiles max_age age_buckets now = .ok s ↔ 0 < age_buckets ∧
      { quantiles_ := quantiles
        quantile_values_ := .new (CKMSQuantiles.new quantiles) (max_age * ticksPerMillisecond)
          age_buckets.toNat now } = s := by
  unfold new
  split
  · exact iff_of_false nofun fun h => by omega
  · split
    · exact iff_of_false nofun fun h => by omega
    · rw [Except.ok.injEq]
      exact (and_iff_right (by omega)).symm

theorem new_inRange {quantiles : List CKMSQuantiles.Quantile} {max_age age_buckets now : Int}
    {s : Summary} (h : new quantiles max_age age_buckets now = .ok s) :
    s.quantile_values_.InRange := by
  obtain ⟨hpos, rfl⟩ := new_eq_ok_iff.mp h
  simp only [InRange, TimeWindowQuantiles.new, List.length_replicate]
  omega

variable {P : TimeWindowQuantiles CKMSQuantiles → Prop}

theorem invariant_collectLoop (hP : Invariant P) (clock : Nat → Int)
    (quantiles : List CKMSQuantiles.Quantile) :
    ∀ {reading : Nat} {w : TimeWindowQuantiles CKMSQuantiles} {r}, P w →
      collectLoop clock reading quantiles w = some r → P r.2 := by
  induction quantiles with
  | nil => intro reading w r h hloop; exact Option.some.inj hloop ▸ h
  | cons quantile rest ih =>
      intro reading w r h hloop
      obtain ⟨⟨value, w₁⟩, hget, hmore⟩ := Option.bind_eq_some_iff.mp hloop
      obtain ⟨⟨quantiles, w₂⟩, hrest, hr⟩ := Option.bind_eq_some_iff.mp hmore
      have := ih (hP.get h hget) hrest
      exact Option.some.inj hr ▸ this

theorem invariant_step (hP : Invariant P) {s s' : Summary} (h : P s.quantile_values_) {call : Call}
    (hstep : step s call = some s') : P s'.quantile_values_ := by
  cases call with
  | observe now value =>
      obtain ⟨w, hinsert, hs'⟩ := Option.bind_eq_some_iff.mp hstep
      exact Option.some.inj hs' ▸ hP.insert h hinsert
  | collect clock =>
      obtain ⟨⟨metric, s₁⟩, hcollect, rfl⟩ := Option.map_eq_some_iff.mp hstep
      obtain ⟨⟨quantile, w⟩, hloop, hr⟩ := Option.bind_eq_some_iff.mp hcollect
      obtain ⟨-, rfl⟩ := Prod.mk.inj (Option.some.inj hr)
      exact invariant_collectLoop hP clock _ h hloop

theorem invariant_run (hP : Invariant P) (calls : List Call) : ∀ {s s' : Summary},
    P s.quantile_values_ → run s calls = some s' → P s'.quantile_values_ := by
  induction calls with
  | nil => intro s s' h hrun; exact Option.some.inj hrun ▸ h
  | cons call calls ih =>
      intro s s' h hrun
      obtain ⟨s₁, hstep, hrest⟩ := Option.bind_eq_some_iff.mp hrun
      exact ih (invariant_step hP h hstep) hrest

end Summary

end PrometheusCpp
