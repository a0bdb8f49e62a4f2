/-
# PrometheusCpp.Core.FamilyContract -- what a reachable family guarantees

Whatever is true of constructed objects and kept by their methods is true of every object a reachable
family stores (`Reachable.objects`). The guarantees of the interface hold jointly, but for one thing:
`Collect` goes through all objects, and the constructor of a summary lets through a window without a
positive rotation interval, whose `Collect` may not return. So they hold exactly in the families whose
objects can all be collected (`family_contract_iff`).
-/
import PrometheusCpp.Core.CkmsAccuracy
import PrometheusCpp.Core.Family
import PrometheusCpp.Core.SummaryRotation

namespace PrometheusCpp

open ByteString

namespace Family

variable {k : MetricKind} {f f' : Family k}

/-! ## What holds of the stored objects -/

/-- The property is one of constructed objects, and every method keeps it. -/
structure Kept (P : k.Object → Prop) : Prop where
  constructed : ∀ object, k.Constructed object → P object
  call : ∀ (call : k.Call) object object', MetricKind.call call object = some object' →
    P object → P object'
  collect : ∀ clock object r, k.collect clock object = some r → P object → P r.2

theorem mem_add {labels : Labels} {object : Ptr × k.Object} {entry : Labels × Ptr × k.Object}
    (h : entry ∈ (f.add labels object).2.metrics_.entries) :
    entry ∈ f.metrics_.entries ∨ entry = (labels, object) := by
  rcases add_cases f labels object with ⟨stored, -, hadd⟩ | ⟨e, -, -, hadd⟩ |
    ⟨-, -, f', hadd, -, hentries⟩
  · rw [hadd] at h
    exact .inl h
  · rw [hadd] at h
    exact .inl h
  · rw [hadd, hentries] at h
    rcases List.mem_append.mp h with hold | hnew
    · exact .inl hold
    · exact .inr (List.mem_singleton.mp hnew)

theorem Kept.step {P : k.Object → Prop} (hkept : Kept P) (hstep : Step f f')
    (h : ∀ entry ∈ f.metrics_.entries, P entry.2.2) : ∀ entry ∈ f'.metrics_.entries, P entry.2.2 := by
  intro entry hentry
  cases hstep with
  | add labels p object constructed nonnull fresh =>
      rcases mem_add hentry with hold | rfl
      · exact h entry hold
      · exact hkept.constructed object constructed
  | remove metric => exact h entry (List.eraseP_subset hentry)
  | call metric call done =>
      obtain ⟨found, hfound, hmore⟩ := Option.bind_eq_some_iff.mp done
      obtain ⟨object, hobject, hf'⟩ := Option.bind_eq_some_iff.mp hmore
      rw [← Option.some.inj hf'] at hentry
      obtain ⟨old, hold, rfl⟩ := List.mem_map.mp hentry
      dsimp only
      split_ifs
      · exact hkept.call call _ _ hobject (h found (List.mem_of_find?_eq_some hfound))
      · exact h old hold
  | collect iteration clock done =>
      unfold Family.collect at done
      split at done
      · rw [← Option.some.inj done] at hentry
        exact h entry hentry
      · obtain ⟨metric, -, hr⟩ := Option.bind_eq_some_iff.mp done
        rw [← Option.some.inj hr] at hentry
        obtain ⟨old, hold, rfl⟩ := List.mem_map.mp hentry
        show P (collectedObject clock old.2).2
        unfold collectedObject
        cases hcollect : k.collect (clock old.2.1) old.2.2 with
        | none => exact h old hold
        | some r => exact hkept.collect _ _ r hcollect (h old hold)

theorem Reachable.objects {P : k.Object → Prop} (hkept : Kept P) {name help : Bytes}
    {constant_labels : Labels} (h : Reachable name help constant_labels f) :
    ∀ entry ∈ f.metrics_.entries, P entry.2.2 := by
  induction h with
  | new done =>
      obtain ⟨-, -, rfl⟩ := new_eq_ok done
      exact fun _ hentry => absurd hentry List.not_mem_nil
  | step reached taken ih => exact hkept.step taken ih

/-! ## Objects that can be collected -/

/-- Only a summary may not be. -/
def CollectableObject : (k : MetricKind) → k.Object → Prop
  | .counter, _ => True
  | .gauge, _ => True
  | .histogram, _ => True
  | .info, _ => True
  | .summary, s => s.Collectable

instance (k : MetricKind) (object : k.Object) : Decidable (CollectableObject k object) := by
  cases k <;> unfold CollectableObject <;> infer_instance

/-- The index of the window of a summary is in range. -/
def ObjectInRange : (k : MetricKind) → k.Object → Prop
  | .counter, _ => True
  | .gauge, _ => True
  | .histogram, _ => True
  | .info, _ => True
  | .summary, s => s.quantile_values_.InRange

theorem kept_inRange (k : MetricKind) : Kept (ObjectInRange k) where
  constructed object hconstructed := by
    cases hconstructed with
    | summary done => exact Summary.new_inRange done
    | _ => trivial
  call call object object' hcall h := by
    cases call with
    | summaryObserve now value =>
        have hstep : Summary.step object (.observe now value) = some object' := hcall
        exact Summary.invariant_step TimeWindowQuantiles.inRange_invariant h hstep
    | _ => trivial
  collect clock object r hcollect h := by
    cases k with
    | summary =>
        have hstep : Summary.step object (.collect clock) = some r.2 := by
          rw [Summary.step, show Summary.collect object clock = some r from hcollect, Option.map_some]
        exact Summary.invariant_step TimeWindowQuantiles.inRange_invariant h hstep
    | _ => trivial

theorem collect_isSome_iff {object : k.Object} (h : ObjectInRange k object) :
    (∀ clock, (k.collect clock object).isSome) ↔ CollectableObject k object := by
  cases k with
  | summary => exact Summary.collect_isSome_iff h
  | _ => exact iff_of_true (fun _ => rfl) trivial

/-- The counters, gauges, histograms and infos of a family can always be collected. -/
theorem collectable_of_ne_summary (h : k ≠ .summary) (object : k.Object) :
    CollectableObject k object := by
  cases k with
  | summary => exact absurd rfl h
  | _ => trivial

/-! ## The guarantees -/

structure Contract (f : Family k) : Prop where
  labels_valid : ∀ labels ∈ f.metrics_.keys, ∀ label ∈ labels.entries, f.ValidLabelName label.1
  add_throws_iff : ∀ labels object, (∃ e, (f.add labels object).1 = .error e) ↔
    labels ∉ f.metrics_.keys ∧ ¬ ∀ label ∈ labels.entries, f.ValidLabelName label.1
  add_throws_unchanged : ∀ labels object e, (f.add labels object).1 = .error e →
    (f.add labels object).2 = f
  add_stored : ∀ labels stored object, (labels, stored) ∈ f.metrics_.entries →
    f.add labels object = (.ok stored.1, f)
  add_new : ∀ labels object, labels ∉ f.metrics_.keys →
    (∀ label ∈ labels.entries, f.ValidLabelName label.1) →
    ∃ f', f.add labels object = (.ok object.1, f') ∧
      f' = { f with metrics_ := (f.metrics_.emplace labels object).1 } ∧
      f'.metrics_.entries = f.metrics_.entries ++ [(labels, object)]
  remove_entries : ∀ metric, (f.remove metric).metrics_.entries =
    f.metrics_.entries.filter fun entry => decide (entry.2.1 ≠ metric)
  remove_one : ∀ entry ∈ f.metrics_.entries, ∀ entry' ∈ f.metrics_.entries,
    entry.2.1 = entry'.2.1 → entry = entry'
  remove_unowned : ∀ metric, (∀ entry ∈ f.metrics_.entries, entry.2.1 ≠ metric) →
    f.remove metric = f
  remove_null : f.remove nullptr = f
  collect_empty : ∀ iteration clock, f.metrics_.entries = [] →
    f.collect iteration clock = some ([], f)
  collect_metrics : ∀ iteration clock, f.metrics_.entries ≠ [] →
    ∃ family f', f.collect iteration clock = some ([family], f') ∧
      f.Collects iteration clock family

/-- All of them but that of a collect hold without a condition. -/
theorem Inv.contract (h : Inv f)
    (hreturns : ∀ entry ∈ f.metrics_.entries, ∀ clock, (k.collect clock entry.2.2).isSome) :
    Contract f where
  labels_valid labels hl := by
    obtain ⟨⟨key, value⟩, hmem, rfl⟩ := List.mem_map.mp hl
    exact (labelsAllowed_iff f key).mp (h.allowed (key, value.1) (List.mem_map_of_mem hmem))
  add_throws_iff labels object := by
    rw [← labelsAllowed_iff]
    rcases add_cases f labels object with ⟨stored, hmem, hadd⟩ | ⟨e, hnew, hnot, hadd⟩ |
      ⟨hnew, hallowed, f', hadd, -, -⟩
    · simp [hadd, UnorderedMap.mem_keys_of_mem hmem]
    · simp [hadd, hnew, hnot]
    · simp [hadd, hallowed]
  add_throws_unchanged labels object e he := by
    rcases add_cases f labels object with ⟨stored, hmem, hadd⟩ | ⟨e, hnew, hnot, hadd⟩ |
      ⟨hnew, hallowed, f', hadd, -, -⟩
    · rw [hadd]
    · rw [hadd]
    · rw [hadd] at he
      cases he
  add_stored labels stored object hmem := add_of_stored hmem object
  add_new labels object hnew hvalid :=
    add_of_allowed hnew ((labelsAllowed_iff f labels).mpr hvalid) object
  remove_entries metric := UnorderedMap.eraseP_eq_filter h.distinct_owners metric
  remove_one entry he entry' he' hsame :=
    List.inj_on_of_nodup_map h.distinct_owners he he' hsame
  remove_unowned metric hnone := remove_of_unowned hnone
  remove_null := remove_of_unowned fun entry hentry =>
    h.nonnull (entry.1, entry.2.1) (List.mem_map_of_mem hentry)
  collect_empty iteration clock hempty := collect_of_empty hempty iteration clock
  collect_metrics iteration clock hne :=
    h.collect_metrics iteration clock hne fun entry hentry => hreturns entry hentry _

/-- A family that can be collected at any time can collect each of its objects. -/
theorem Contract.collectable (hcontract : Contract f) {name help : Bytes} {constant_labels : Labels}
    (h : Reachable name help constant_labels f) :
    ∀ entry ∈ f.metrics_.entries, CollectableObject k entry.2.2 := by
  intro entry hentry
  refine (collect_isSome_iff (h.objects (kept_inRange k) entry hentry)).mp fun clock => ?_
  obtain ⟨family, f', hcollect, -⟩ := hcontract.collect_metrics ⟨_, .refl _⟩ (fun _ => clock)
    (List.ne_nil_of_mem hentry)
  exact returns_of_collect hcollect entry hentry

/-- The guarantees hold in a family reached from a constructed one if and only if every object that it
stores can be collected. -/
theorem family_contract_iff {name help : Bytes} {constant_labels : Labels} {f : Family k}
    (h : Reachable name help constant_labels f) :
    Contract f ↔ ∀ entry ∈ f.metrics_.entries, CollectableObject k entry.2.2 := by
  refine ⟨fun hcontract => hcontract.collectable h, fun hcollectable => ?_⟩
  exact h.inv.contract fun entry hentry =>
    (collect_isSome_iff (h.objects (kept_inRange k) entry hentry)).mpr (hcollectable entry hentry)

/-! ## A family that keeps them, and one that does not -/

/-- The labels of a path. -/
def pathLabel (path : String) : Labels := .single (ascii "path") (ascii path)

def apiLabels : Labels := .single (ascii "job") (ascii "api")

/-- A family of summaries with a constant label. -/
def latencies : Family .summary where
  metrics_ := .empty
  name_ := ascii "latency"
  help_ := []
  constant_labels_ := apiLabels

/-- A summary of the median over the given age, in five buckets. -/
def medianSummary (max_age : Int) : Summary where
  quantiles_ := [CKMSQuantiles.medianTarget.toQuantile]
  quantile_values_ := .new (.new [CKMSQuantiles.medianTarget.toQuantile])
    (max_age * Summary.ticksPerMillisecond) 5 0

theorem constructed_medianSummary (max_age : Int) :
    MetricKind.Constructed .summary (medianSummary max_age) := by
  have hnew : Summary.new [CKMSQuantiles.medianTarget.toQuantile] max_age 5 0 =
      .ok (medianSummary max_age) := rfl
  exact .summary hnew

/-- The family with one summary, or with two. -/
def oneLatency (max_age : Int) : Family .summary :=
  (latencies.add (pathLabel "/a") (1, medianSummary max_age)).2

def twoLatencies (max_age : Int) : Family .summary :=
  ((oneLatency max_age).add (pathLabel "/b") (2, medianSummary max_age)).2

theorem reachable_oneLatency (max_age : Int) :
    Reachable (ascii "latency") [] apiLabels (oneLatency max_age) :=
  (Reachable.new (f := latencies) rfl).step
    (.add _ 1 _ (constructed_medianSummary max_age) (by decide) nofun)

theorem oneLatency_entries (max_age : Int) : (oneLatency max_age).metrics_.entries =
    [(pathLabel "/a", 1, medianSummary max_age)] := rfl

theorem twoLatencies_entries (max_age : Int) : (twoLatencies max_age).metrics_.entries =
    [(pathLabel "/a", 1, medianSummary max_age),
      (pathLabel "/b", 2, medianSummary max_age)] := rfl

/-- Two labelled metrics in a family with a constant label, each over a minute. -/
theorem family_contract_of_two : (twoLatencies 60000).metrics_.keys =
    [pathLabel "/a", pathLabel "/b"] ∧ Contract (twoLatencies 60000) := by
  have hreached : Reachable (ascii "latency") [] apiLabels (twoLatencies 60000) :=
    (reachable_oneLatency 60000).step (.add _ 2 _ (constructed_medianSummary 60000) (by decide) (by
      rw [oneLatency_entries]
      simp))
  refine ⟨rfl, (family_contract_iff hreached).mpr ?_⟩
  rw [twoLatencies_entries]
  simp only [List.forall_mem_cons]
  exact ⟨by decide +kernel, by decide +kernel, nofun⟩

/-- A summary that is constructed with no age cannot be collected later on. -/
theorem family_not_always_contract :
    ¬ ∀ (k : MetricKind) (name help : Bytes) (constant_labels : Labels) (f : Family k),
      Reachable name help constant_labels f → Contract f := by
  intro h
  have hcontract := h .summary _ _ _ _ (reachable_oneLatency 0)
  have hcollectable := hcontract.collectable (reachable_oneLatency 0)
    (pathLabel "/a", 1, medianSummary 0) (by simp [oneLatency_entries])
  exact absurd hcollectable (by decide +kernel)

end Family

end PrometheusCpp
