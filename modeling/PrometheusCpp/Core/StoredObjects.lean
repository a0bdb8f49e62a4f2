/-
# PrometheusCpp.Core.StoredObjects -- what holds of the objects in a registry

The families in a reachable registry are reachable families (`Reachable.families`), and whatever is
true of constructed objects and kept by their methods is true of every object they store
(`Reachable.objects`). That each stored histogram has a counter for each boundary and one more is
such a property.
-/
import PrometheusCpp.Core.FamilyContract
import PrometheusCpp.Core.RegistryInvariant

namespace PrometheusCpp

open ByteString

namespace Family

variable {k : MetricKind} {f f' : Family k}

/-- A histogram has one counter more than boundaries, whatever is done to it. -/
theorem kept_shaped : Kept (k := .histogram) fun h => Histogram.Shaped h.bucket_boundaries_ h where
  constructed h hconstructed := by
    cases hconstructed with
    | histogram done =>
        have hs := Histogram.new_shaped done
        exact ⟨rfl, by rw [hs.boundaries]; exact hs.counts⟩
  call call h h' hcall hs := by
    cases call with
    | histogramCall call =>
        obtain rfl : Histogram.step h call = h' := Option.some.inj hcall
        have hs' := Histogram.step_shaped hs call
        exact ⟨rfl, by rw [hs'.boundaries]; exact hs'.counts⟩
  collect clock h r hcollect hs := by
    obtain rfl : (h.collect, h) = r := Option.some.inj hcollect
    exact hs

end Family

namespace Registry

variable {r r' : Registry}

/-! ## Families -/

/-- The family is what steps have made of a constructed one. -/
def Registered {k : MetricKind} (f : Family k) : Prop :=
  ∃ name help labels, Family.Reachable name help labels f

theorem Registered.step {k : MetricKind} {f f' : Family k} (h : Registered f)
    (hstep : Family.Step f f') : Registered f' := by
  obtain ⟨name, help, labels, hreached⟩ := h
  exact ⟨name, help, labels, hreached.step hstep⟩

theorem registered_step (hstep : Step r r')
    (h : ∀ k, ∀ entry ∈ r.getFamilies k, Registered entry.2) :
    ∀ k, ∀ entry ∈ r'.getFamilies k, Registered entry.2 := by
  have hreplace : ∀ k (families : Families k), (∀ entry ∈ families, Registered entry.2) →
      ∀ k', ∀ entry ∈ (r.setFamilies k families).getFamilies k', Registered entry.2 :=
    fun k families hfamilies => forall_setFamilies
      (P := fun _ families => ∀ entry ∈ families, Registered entry.2) hfamilies fun k' _ => h k'
  cases hstep with
  | add k name help labels address fresh =>
      rcases add_cases r k name help labels address with ⟨-, e, hadd⟩ |
        ⟨-, p, f, -, -, ⟨-, -, hadd⟩ | ⟨-, e, hadd⟩⟩ | ⟨-, e, -, hadd⟩ | ⟨-, f, hf, hadd⟩
      · rwa [hadd]
      · rwa [hadd]
      · rwa [hadd]
      · rwa [hadd]
      · rw [hadd]
        apply hreplace
        intro entry hentry
        rcases List.mem_append.mp hentry with hold | hnew
        · exact h k entry hold
        · rw [List.mem_singleton.mp hnew]
          exact ⟨name, help, labels, .new hf⟩
  | remove k family =>
      rcases remove_cases r k family with ⟨-, hremove⟩ | ⟨-, hremove⟩
      · rwa [hremove]
      · rw [hremove]
        exact hreplace k _ fun entry hentry => h k entry (List.eraseP_subset hentry)
  | @family k before after p f f' registered taken =>
      have hold := h k
      rw [registered] at hold
      apply hreplace
      exact forall_mem_replace hold fun hf => Registered.step hf taken
  | collect walk clock done =>
      obtain ⟨collected, hall, -, hfamilies⟩ := collect_eq_some done
      intro k entry' hentry'
      rw [hfamilies] at hentry'
      obtain ⟨entry, hentry, -, metrics, hcollect⟩ :=
        RelatedLists.exists_left (collectAll_families (hall k)) hentry'
      exact (h k entry hentry).step (.collect _ _ hcollect)

theorem Reachable.families {insert_behavior : InsertBehavior} (h : Reachable insert_behavior r) :
    ∀ k, ∀ entry ∈ r.getFamilies k, Registered entry.2 := by
  induction h with
  | new =>
      intro k entry hentry
      cases k <;> exact absurd hentry List.not_mem_nil
  | step reached taken ih => exact registered_step taken ih

theorem Reachable.histograms_shaped {insert_behavior : InsertBehavior}
    (h : Reachable insert_behavior r) : ∀ family ∈ r.histograms_,
      ∀ entry ∈ family.2.metrics_.entries,
        Histogram.Shaped entry.2.2.bucket_boundaries_ entry.2.2 := by
  intro family hfamily
  obtain ⟨name, help, labels, hreached⟩ := h.families .histogram family hfamily
  exact hreached.objects Family.kept_shaped

/-! ## Collecting -/

/-- A collect that returns has collected the families that own an object, in their order. -/
theorem Inv.collects_of_collect (h : Inv r) {walk : Walk} {clock : Ptr → Nat → Int}
    {result : List MetricFamily × Registry} (hcollect : r.collect walk clock = some result) :
    List.Forall₂ (fun f family => f.2.Collects (walk f.2) clock family) r.nonEmpty result.1 := by
  obtain ⟨collected, hall, -, -⟩ := collect_eq_some hcollect
  have hreturns : ∀ k, ∀ family ∈ r.getFamilies k, ∀ entry ∈ family.2.metrics_.entries,
      (k.collect (clock entry.2.1) entry.2.2).isSome := by
    intro k family hfamily
    obtain ⟨family', -, -, metrics, hfamily'⟩ :=
      RelatedLists.exists_right (collectAll_families (hall k)) hfamily
    exact Family.returns_of_collect hfamily'
  obtain ⟨result', hresult', hcollects⟩ := h.collect_families walk clock hreturns
  obtain rfl : result = result' := Option.some.inj (hcollect.symm.trans hresult')
  exact hcollects

/-- If the stored summaries can be collected, a collect of the registry returns at any time, with one
family for each that owns an object. -/
theorem Reachable.exists_collect {insert_behavior : InsertBehavior}
    (h : Reachable insert_behavior r)
    (hsummaries : ∀ family ∈ r.summaries_, ∀ entry ∈ family.2.metrics_.entries,
      entry.2.2.Collectable) (walk : Walk) (clock : Ptr → Nat → Int) :
    ∃ result, r.collect walk clock = some result ∧
      List.Forall₂ (fun f family => f.2.Collects (walk f.2) clock family) r.nonEmpty result.1 := by
  refine h.inv.collect_families walk clock fun k family hfamily entry hentry => ?_
  obtain ⟨name, help, labels, hreached⟩ := h.families k family hfamily
  refine (Family.collect_isSome_iff (hreached.objects (Family.kept_inRange k) entry hentry)).mpr ?_ _
  cases k with
  | summary => exact hsummaries family hfamily entry hentry
  | _ => exact Family.collectable_of_ne_summary (by decide) _

end Registry

end PrometheusCpp
