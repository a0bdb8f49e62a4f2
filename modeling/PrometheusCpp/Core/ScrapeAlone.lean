/-
# PrometheusCpp.Core.ScrapeAlone -- a scrape with no other thread

Left alone, the scrape that takes its steps one by one is `Collect` as one function of the registry:
for every order in which the maps are walked and whatever the objects read there is a run with the
same result (`scraping_alone`), and every run has the result of `Collect` for some orders and readings
(`Alone.collect`). The steps choose them as they go; so the second part keeps an order for each family
and readings for each object, and needs that no object is in two families.
-/
import PrometheusCpp.Core.ScrapeThreads

namespace PrometheusCpp

open ByteString Linearization

namespace Family

variable {k : MetricKind}

/-- The family when some of its objects have been collected. -/
def collectObjects (f : Family k) (clock : Ptr → Nat → Int) (met : List Ptr) : Family k :=
  { f with
    metrics_ := f.metrics_.mapValues fun other =>
      if other.1 ∈ met then collectedObject clock other else other }

/-- Only the readings of the object itself count. -/
theorem collectObject_congr (f : Family k) {clock clock' : Ptr → Nat → Int} {a : Ptr}
    (h : clock a = clock' a) : f.collectObject clock a = f.collectObject clock' a := by
  have hobject : (fun other : Ptr × k.Object =>
      if other.1 = a then collectedObject clock other else other) =
        fun other => if other.1 = a then collectedObject clock' other else other := by
    funext other
    split_ifs with heq
    · rw [collectedObject, collectedObject, heq, h]
    · rfl
  rw [collectObject, collectObject, hobject]

theorem collectObjects_nil (f : Family k) (clock : Ptr → Nat → Int) : f.collectObjects clock [] = f := by
  have hentries : (f.metrics_.mapValues fun other =>
      if other.1 ∈ [] then collectedObject clock other else other) = f.metrics_ := by
    apply UnorderedMap.eq_of_entries
    refine (List.map_congr_left fun entry _ => congrArg (Prod.mk entry.1) ?_).trans (List.map_id _)
    exact if_neg List.not_mem_nil
  rw [collectObjects, hentries]

theorem collectObjects_concat (f : Family k) (clock : Ptr → Nat → Int) {met : List Ptr} {a : Ptr}
    (h : a ∉ met) :
    (f.collectObjects clock met).collectObject clock a = f.collectObjects clock (met ++ [a]) := by
  have hentries : ((f.metrics_.mapValues fun other =>
      if other.1 ∈ met then collectedObject clock other else other).mapValues fun other =>
        if other.1 = a then collectedObject clock other else other) =
      f.metrics_.mapValues fun other =>
        if other.1 ∈ met ++ [a] then collectedObject clock other else other := by
    apply UnorderedMap.eq_of_entries
    refine List.map_map.trans (List.map_congr_left fun entry _ => congrArg (Prod.mk entry.1) ?_)
    by_cases hmet : entry.2.1 ∈ met
    · have hne : (collectedObject clock entry.2).1 ≠ a := fun heq => h (heq ▸ hmet)
      simp only [if_pos hmet, if_pos (List.mem_append_left [a] hmet), if_neg hne]
    · by_cases ha : entry.2.1 = a
      · have hmem : entry.2.1 ∈ met ++ [a] := List.mem_append_right _ (List.mem_singleton.mpr ha)
        simp only [if_neg hmet, if_pos ha, if_pos hmem]
      · have hmem : entry.2.1 ∉ met ++ [a] := by simp [hmet, ha]
        simp only [if_neg hmet, if_neg ha, if_neg hmem]
  rw [collectObject, collectObjects, collectObjects, hentries]

theorem collectObjects_all (f : Family k) (clock : Ptr → Nat → Int) {met : List Ptr}
    (h : ∀ entry ∈ f.metrics_.entries, entry.2.1 ∈ met) :
    f.collectObjects clock met = { f with metrics_ := f.metrics_.mapValues (collectedObject clock) } := by
  have hentries : (f.metrics_.mapValues fun other =>
      if other.1 ∈ met then collectedObject clock other else other) =
        f.metrics_.mapValues (collectedObject clock) := by
    apply UnorderedMap.eq_of_entries
    exact List.map_congr_left fun entry hentry => congrArg (Prod.mk entry.1) (if_pos (h entry hentry))
  rw [collectObjects, hentries]

theorem mem_collectObjects {f : Family k} (clock : Ptr → Nat → Int) {met : List Ptr}
    {labels : Labels} {a : Ptr} {object : k.Object} (h : (labels, a, object) ∈ f.metrics_.entries)
    (ha : a ∉ met) : (labels, a, object) ∈ (f.collectObjects clock met).metrics_.entries := by
  have hmem := UnorderedMap.mem_mapValues h fun other =>
    if other.1 ∈ met then collectedObject clock other else other
  rwa [if_neg ha] at hmem

/-- The addresses of the objects of a family. -/
def objects (f : Family k) : List Ptr := f.metrics_.entries.map fun entry => entry.2.1

theorem collectObjects_congr {f : Family k} {clock clock' : Ptr → Nat → Int} {met met' : List Ptr}
    (hmet : ∀ a ∈ f.objects, a ∈ met' ↔ a ∈ met) (hclock : ∀ a ∈ met, clock' a = clock a) :
    f.collectObjects clock' met' = f.collectObjects clock met := by
  have hentries : (f.metrics_.mapValues fun other =>
      if other.1 ∈ met' then collectedObject clock' other else other) =
        f.metrics_.mapValues fun other =>
          if other.1 ∈ met then collectedObject clock other else other := by
    apply UnorderedMap.eq_of_entries
    refine List.map_congr_left fun entry hentry => congrArg (Prod.mk entry.1) ?_
    have hiff := hmet entry.2.1 (List.mem_map_of_mem hentry)
    dsimp only
    by_cases hmem : entry.2.1 ∈ met
    · rw [if_pos hmem, if_pos (hiff.mpr hmem), collectedObject, collectedObject, hclock _ hmem]
    · rw [if_neg hmem, if_neg fun h => hmem (hiff.mp h)]
  rw [collectObjects, collectObjects, hentries]

theorem collectObjects_of_unmet {f : Family k} (clock : Ptr → Nat → Int) {met : List Ptr}
    (h : ∀ a ∈ f.objects, a ∉ met) : f.collectObjects clock met = f := by
  have hnone : f.collectObjects clock met = f.collectObjects clock [] :=
    collectObjects_congr (fun a ha => iff_of_false (h a ha) List.not_mem_nil) fun _ _ => rfl
  rw [hnone, collectObjects_nil]

/-- An object that has not been collected is as it was. -/
theorem mem_of_mem_collectObjects {f : Family k} {clock : Ptr → Nat → Int} {met : List Ptr}
    {labels : Labels} {a : Ptr} {object : k.Object}
    (h : (labels, a, object) ∈ (f.collectObjects clock met).metrics_.entries) (ha : a ∉ met) :
    (labels, a, object) ∈ f.metrics_.entries := by
  obtain ⟨⟨key, other⟩, hentry, heq⟩ := List.mem_map.mp h
  obtain ⟨rfl, hobject⟩ := Prod.mk.inj heq
  dsimp only at hobject
  by_cases hmem : other.1 ∈ met
  · rw [if_pos hmem] at hobject
    have haddress : other.1 = a := congrArg Prod.fst hobject
    exact absurd (haddress ▸ hmem) ha
  · rw [if_neg hmem] at hobject
    rwa [← hobject]

theorem collectMetric_congr {f f' : Family k} (hlabels : f'.constant_labels_ = f.constant_labels_)
    {clock clock' : Ptr → Nat → Int} {entry : Labels × Ptr × k.Object}
    (h : clock' entry.2.1 = clock entry.2.1) :
    f'.collectMetric clock' entry = f.collectMetric clock entry := by
  rw [collectMetric, collectMetric, hlabels, h]

theorem collect_congr {f : Family k} (iteration : f.metrics_.Iteration)
    {clock clock' : Ptr → Nat → Int} (h : ∀ a ∈ f.objects, clock' a = clock a) :
    f.collect iteration clock' = f.collect iteration clock := by
  have hclock : ∀ entry ∈ f.metrics_.entries, clock' entry.2.1 = clock entry.2.1 :=
    fun entry hentry => h entry.2.1 (List.mem_map_of_mem hentry)
  have hmetric : iteration.order.mapM (f.collectMetric clock') =
      iteration.order.mapM (f.collectMetric clock) := RelatedLists.mapM_congr fun entry hentry =>
    collectMetric_congr rfl (hclock entry (iteration.perm.mem_iff.mp hentry))
  have hvalues : f.metrics_.mapValues (collectedObject clock') =
      f.metrics_.mapValues (collectedObject clock) := by
    apply UnorderedMap.eq_of_entries
    refine List.map_congr_left fun entry hentry => congrArg (Prod.mk entry.1) ?_
    rw [collectedObject, collectedObject, hclock entry hentry]
  rw [Family.collect, Family.collect, hmetric, hvalues]

/-- What is left of a family that has been collected. -/
theorem collect_eq_collectObjects {f f' : Family k} {iteration : f.metrics_.Iteration}
    {clock : Ptr → Nat → Int} {metrics : List MetricFamily} {met : List Ptr}
    (h : f.collect iteration clock = some (metrics, f')) (hmet : ∀ a ∈ f.objects, a ∈ met) :
    f' = f.collectObjects clock met := by
  unfold Family.collect at h
  split at h
  · rename_i hempty
    have hnone : f.objects = [] := List.map_eq_nil_iff.mpr (List.isEmpty_iff.mp hempty)
    rw [collectObjects_of_unmet clock (by simp [hnone])]
    exact (Prod.mk.inj (Option.some.inj h)).2.symm
  · obtain ⟨metric, -, hresult⟩ := Option.bind_eq_some_iff.mp h
    rw [collectObjects_all f clock fun entry hentry => hmet _ (List.mem_map_of_mem hentry)]
    exact (Prod.mk.inj (Option.some.inj hresult)).2.symm

end Family

namespace Registry

theorem setFamilies_setFamilies (r : Registry) {k : MetricKind} (families families' : Families k) :
    (r.setFamilies k families).setFamilies k families' = r.setFamilies k families' := by
  cases k <;> rfl

section Alone

variable {r : Registry} {k : MetricKind} {before after : Families k} {p : Ptr} {f f' : Family k}
  {walk : Walk} {clock : Ptr → Nat → Int} {left : List (MetricKind × Ptr)}
  {results : List MetricFamily}

/-- The walk over the rest of a family's map. -/
theorem walk_alone {rest : List (Labels × Ptr × k.Object)} {metric : List ClientMetric}
    (hrest : List.Forall₂ (fun entry m => f.collectMetric clock entry = some m) rest metric) :
    ∀ {met : List Ptr} {collected : MetricFamily},
      (∀ entry ∈ rest, entry ∈ f.metrics_.entries) →
      (met ++ rest.map fun entry => entry.2.1).Nodup →
      Run Shared.Step
        ⟨r.setFamilies k (before ++ (p, f.collectObjects clock met) :: after),
          .familyCollect (k, p) (rest.map fun entry => (entry.1, entry.2.1)) collected left results⟩ []
        ⟨r.setFamilies k (before ++
            (p, f.collectObjects clock (met ++ rest.map fun entry => entry.2.1)) :: after),
          .familyCollect (k, p) [] { collected with metric := collected.metric ++ metric } left
            results⟩ := by
  induction hrest with
  | nil =>
      intro met collected _ _
      simp only [List.map_nil, List.append_nil]
      exact .init
  | @cons entry m rest metric hm hrest ih =>
      intro met collected hstored hnodup
      obtain ⟨labels, a, object⟩ := entry
      have ha : a ∉ met := by
        rw [List.map_cons, List.nodup_middle, List.nodup_cons] at hnodup
        exact fun hmem => hnodup.1 (List.mem_append_left _ hmem)
      have hnext : met ++ ((labels, a, object) :: rest).map (fun entry => entry.2.1) =
          (met ++ [a]) ++ rest.map fun entry => entry.2.1 := by
        rw [List.append_assoc]
        rfl
      have hfirst : Shared.Step
          ⟨r.setFamilies k (before ++ (p, f.collectObjects clock met) :: after), .familyCollect (k, p)
            ((labels, a) :: rest.map fun entry => (entry.1, entry.2.1)) collected left results⟩ none
          ⟨_, .familyCollect (k, p) (rest.map fun entry => (entry.1, entry.2.1))
            { collected with metric := collected.metric ++ [m] } left results⟩ :=
        .collectMetric (getFamilies_setFamilies r k _)
          (Family.mem_collectObjects clock (hstored _ List.mem_cons_self) ha) hm
      rw [setFamilies_setFamilies, Family.collectObjects_concat f clock ha] at hfirst
      have hmore := @ih (met ++ [a]) { collected with metric := collected.metric ++ [m] }
        (fun e he => hstored e (List.mem_cons_of_mem _ he)) (hnext ▸ hnodup)
      rw [hnext]
      have hmetric : collected.metric ++ m :: metric = collected.metric ++ [m] ++ metric := by
        rw [List.append_assoc]
        rfl
      rw [hmetric]
      exact (Run.silent .init hfirst).trans hmore

theorem family_alone (hf : Family.Inv f) (registered : r.getFamilies k = before ++ (p, f) :: after)
    {metrics : List MetricFamily} (hcollect : f.collect (walk f) clock = some (metrics, f')) :
    Run Shared.Step ⟨r, .collectAll ((k, p) :: left) results⟩ []
      ⟨r.setFamilies k (before ++ (p, f') :: after), .collectAll left (results ++ metrics)⟩ := by
  unfold Family.collect at hcollect
  split at hcollect
  · rename_i hempty
    obtain ⟨rfl, rfl⟩ := Prod.mk.inj (Option.some.inj hcollect)
    rw [← registered, setFamilies_getFamilies, List.append_nil]
    exact .silent .init (.empty (mem_registered registered) hempty)
  · rename_i hnonempty
    obtain ⟨metric, hmap, hresult⟩ := Option.bind_eq_some_iff.mp hcollect
    obtain ⟨rfl, rfl⟩ := Prod.mk.inj (Option.some.inj hresult)
    have hrest := RelatedLists.mapM_eq_some_iff.mp hmap
    have hstored : ∀ entry ∈ (walk f).order, entry ∈ f.metrics_.entries :=
      fun entry hentry => (walk f).perm.mem_iff.mp hentry
    have hnodup : ([] ++ (walk f).order.map fun e : Labels × Ptr × k.Object => e.2.1).Nodup := by
      rw [List.nil_append, ((walk f).perm.map _).nodup_iff]
      exact hf.distinct_owners
    have hall : ∀ entry ∈ f.metrics_.entries,
        entry.2.1 ∈ [] ++ (walk f).order.map fun e : Labels × Ptr × k.Object => e.2.1 := by
      intro entry hentry
      exact List.mem_map.mpr ⟨entry, (walk f).perm.mem_iff.mpr hentry, rfl⟩
    have hentered : Run Shared.Step ⟨r, .collectAll ((k, p) :: left) results⟩ []
        ⟨r.setFamilies k (before ++ (p, f.collectObjects clock []) :: after),
          .familyCollect (k, p) ((walk f).order.map fun entry => (entry.1, entry.2.1))
            { name := f.name_, help := f.help_, type := k.metricType, metric := [] } left results⟩ := by
      rw [Family.collectObjects_nil, ← registered, setFamilies_getFamilies]
      exact .silent .init (.enter (mem_registered registered) (Bool.eq_false_iff.mpr hnonempty) (walk f))
    have hwalked := hentered.trans (walk_alone hrest hstored hnodup)
    rw [Family.collectObjects_all f clock hall] at hwalked
    exact .silent hwalked .leave

/-- The families of a vector, one after the other. -/
theorem collectAll_alone {families : Families k} (hinv : ∀ entry ∈ families, entry.2.Inv) :
    ∀ (before : Families k) (results : List MetricFamily) {r : Registry} {families' : Families k}
      {metrics : List MetricFamily}, r.getFamilies k = before ++ families →
      collectAll walk clock families = some (metrics, families') →
      Run Shared.Step
        ⟨r, .collectAll ((families.map fun entry => (k, entry.1)) ++ left) results⟩ []
        ⟨r.setFamilies k (before ++ families'), .collectAll left (results ++ metrics)⟩ := by
  induction families with
  | nil =>
      intro before results r families' metrics hfamilies hcollect
      obtain ⟨rfl, rfl⟩ := Prod.mk.inj (Option.some.inj hcollect)
      rw [← hfamilies, setFamilies_getFamilies, List.append_nil]
      exact .init
  | cons entry families ih =>
      intro before results r families' metrics hfamilies hcollect
      obtain ⟨p, f⟩ := entry
      obtain ⟨hf, hrest⟩ := List.forall_mem_cons.mp hinv
      obtain ⟨⟨first, f'⟩, hfirst, hmore⟩ := Option.bind_eq_some_iff.mp hcollect
      obtain ⟨⟨others, families''⟩, hothers, hresult⟩ := Option.bind_eq_some_iff.mp hmore
      obtain ⟨rfl, rfl⟩ := Prod.mk.inj (Option.some.inj hresult)
      have hhead : Run Shared.Step
          ⟨r, .collectAll ((k, p) :: ((families.map fun entry => (k, entry.1)) ++ left)) results⟩ [] _ :=
        family_alone hf hfamilies hfirst
      have hnext : (r.setFamilies k (before ++ (p, f') :: families)).getFamilies k =
          (before ++ [(p, f')]) ++ families := by
        rw [getFamilies_setFamilies, List.append_assoc]
        rfl
      have htail := ih hrest _ (results ++ first) hnext hothers
      rw [setFamilies_setFamilies, List.append_assoc, List.append_assoc] at htail
      exact hhead.trans htail

theorem scraping_alone (h : Inv r) {r' : Registry}
    (hcollect : r.collect walk clock = some (results, r')) :
    Run Shared.Step ⟨r, .collectAll r.order []⟩ [] ⟨r', .collectAll [] results⟩ := by
  obtain ⟨⟨counters, counters_⟩, hcounters, hcollect⟩ := Option.bind_eq_some_iff.mp hcollect
  obtain ⟨⟨gauges, gauges_⟩, hgauges, hcollect⟩ := Option.bind_eq_some_iff.mp hcollect
  obtain ⟨⟨histograms, histograms_⟩, hhistograms, hcollect⟩ := Option.bind_eq_some_iff.mp hcollect
  obtain ⟨⟨infos, infos_⟩, hinfos, hcollect⟩ := Option.bind_eq_some_iff.mp hcollect
  obtain ⟨⟨summaries, summaries_⟩, hsummaries, hcollect⟩ := Option.bind_eq_some_iff.mp hcollect
  obtain ⟨rfl, rfl⟩ := Prod.mk.inj (Option.some.inj hcollect)
  have hlocked : Run Shared.Step ⟨r, .collectAll r.order []⟩ [] ⟨r, .collectAll r.order []⟩ := .init
  have hcounted := hlocked.trans (collectAll_alone (h.families .counter) [] _ rfl hcounters)
  have hgauged := hcounted.trans (collectAll_alone (h.families .gauge) [] _ rfl hgauges)
  have hbinned := hgauged.trans
    (collectAll_alone (h.families .histogram) [] _ rfl hhistograms)
  have hinformed := hbinned.trans (collectAll_alone (h.families .info) [] _ rfl hinfos)
  exact hinformed.trans (collectAll_alone (h.families .summary) [] _ rfl hsummaries)

end Alone

/-! ## Every run is a collect -/

/-- No object is in two families. -/
def Apart (r : Registry) : Prop :=
  ∀ (k k' : MetricKind) (p p' : Ptr) (f : Family k) (f' : Family k'), (p, f) ∈ r.getFamilies k →
    (p', f') ∈ r.getFamilies k' → ∀ a ∈ f.objects, a ∈ f'.objects → (k, p) = (k', p')

/-- The registry when some of the objects have been collected. -/
def collectObjects (r : Registry) (clock : Ptr → Nat → Int) (met : List Ptr) : Registry where
  insert_behavior_ := r.insert_behavior_
  counters_ := r.counters_.map fun entry => (entry.1, entry.2.collectObjects clock met)
  gauges_ := r.gauges_.map fun entry => (entry.1, entry.2.collectObjects clock met)
  histograms_ := r.histograms_.map fun entry => (entry.1, entry.2.collectObjects clock met)
  infos_ := r.infos_.map fun entry => (entry.1, entry.2.collectObjects clock met)
  summaries_ := r.summaries_.map fun entry => (entry.1, entry.2.collectObjects clock met)

theorem getFamilies_collectObjects (r : Registry) (clock : Ptr → Nat → Int) (met : List Ptr)
    (k : MetricKind) : (r.collectObjects clock met).getFamilies k =
      (r.getFamilies k).map fun entry => (entry.1, entry.2.collectObjects clock met) := by
  cases k <;> rfl

theorem eq_of_families {r r' : Registry} (hbehavior : r.insert_behavior_ = r'.insert_behavior_)
    (hfamilies : ∀ k, r.getFamilies k = r'.getFamilies k) : r = r' := by
  obtain ⟨b, c, g, h, i, s⟩ := r
  obtain ⟨b', c', g', h', i', s'⟩ := r'
  obtain rfl : b = b' := hbehavior
  obtain rfl : c = c' := hfamilies .counter
  obtain rfl : g = g' := hfamilies .gauge
  obtain rfl : h = h' := hfamilies .histogram
  obtain rfl : i = i' := hfamilies .info
  obtain rfl : s = s' := hfamilies .summary
  rfl

theorem collectObjects_congr {r : Registry} {clock clock' : Ptr → Nat → Int} {met met' : List Ptr}
    (hmet : ∀ k, ∀ entry ∈ r.getFamilies k, ∀ a ∈ entry.2.objects, a ∈ met' ↔ a ∈ met)
    (hclock : ∀ a ∈ met, clock' a = clock a) :
    r.collectObjects clock' met' = r.collectObjects clock met := by
  refine eq_of_families rfl fun k => ?_
  rw [getFamilies_collectObjects, getFamilies_collectObjects]
  exact List.map_congr_left fun entry hentry => congrArg (Prod.mk entry.1)
    (Family.collectObjects_congr (hmet k entry hentry) hclock)

theorem mem_collectObjects {r : Registry} {clock : Ptr → Nat → Int} {met : List Ptr}
    {k : MetricKind} {p : Ptr} {f : Family k} (h : (p, f) ∈ (r.collectObjects clock met).getFamilies k) :
    ∃ g, (p, g) ∈ r.getFamilies k ∧ f = g.collectObjects clock met := by
  rw [getFamilies_collectObjects] at h
  obtain ⟨entry, hentry, heq⟩ := List.mem_map.mp h
  obtain ⟨rfl, rfl⟩ := Prod.mk.inj heq
  exact ⟨entry.2, hentry, rfl⟩

/-- An order for one family, and the others as they are. -/
theorem Walk.exists_update (walk : Walk) {k : MetricKind} (f : Family k)
    (iteration : f.metrics_.Iteration) : ∃ walk' : Walk, walk' f = iteration ∧
      ∀ (k' : MetricKind) (f' : Family k'), f'.name_ ≠ f.name_ → walk' f' = walk f' := by
  classical
  let order : ∀ family : Σ k, Family k, family.2.metrics_.Iteration := fun family => walk family.2
  refine ⟨fun {k'} f' => Function.update order ⟨k, f⟩ iteration ⟨k', f'⟩,
    Function.update_self _ _ order, fun k' f' hname => ?_⟩
  refine Function.update_of_ne (fun heq => hname ?_) _ order
  obtain ⟨rfl, heq⟩ := Sigma.mk.inj heq
  rw [eq_of_heq heq]

section Alone

variable {r : Registry} {walk walk' : Walk} {clock clock' : Ptr → Nat → Int} {met met' : List Ptr}
  {done left : List (MetricKind × Ptr)} {results : List MetricFamily} {k : MetricKind} {p : Ptr}

/-- The family at a place, and what `Collect` returns for it. -/
def Returns (r : Registry) (walk : Walk) (clock : Ptr → Nat → Int) (place : MetricKind × Ptr)
    (metrics : List MetricFamily) : Prop :=
  ∃ f, (place.2, f) ∈ r.getFamilies place.1 ∧
    (f.collect (walk f) clock).map Prod.fst = some metrics

/-- The families that are done have been collected in full, and those that are left not at all. -/
structure Done (r : Registry) (walk : Walk) (clock : Ptr → Nat → Int) (met : List Ptr)
    (done left : List (MetricKind × Ptr)) (results : List MetricFamily) : Prop where
  order : r.order = done ++ left
  results : ∃ returned, List.Forall₂ (r.Returns walk clock) done returned ∧ results = returned.flatten
  collected : ∀ place ∈ done, ∀ f : Family place.1, (place.2, f) ∈ r.getFamilies place.1 →
    ∀ a ∈ f.objects, a ∈ met
  untouched : ∀ place ∈ left, ∀ f : Family place.1, (place.2, f) ∈ r.getFamilies place.1 →
    ∀ a ∈ f.objects, a ∉ met

/-- A scrape that has begun on the registry `r` with no other thread. -/
inductive Alone (r : Registry) : Shared → Prop
  | outside : Alone r ⟨r, .outside⟩
  | collectAll {walk : Walk} {clock : Ptr → Nat → Int} {met : List Ptr}
      {done left : List (MetricKind × Ptr)} {results : List MetricFamily}
      (between : Done r walk clock met done left results) :
      Alone r ⟨r.collectObjects clock met, .collectAll left results⟩
  | familyCollect {walk : Walk} {clock : Ptr → Nat → Int} {met : List Ptr}
      {done left : List (MetricKind × Ptr)} {results : List MetricFamily} {k : MetricKind} {p : Ptr}
      {f : Family k} {seen rest : List (Labels × Ptr × k.Object)} {metrics : List (Labels × Ptr)}
      {metric : List ClientMetric} (between : Done r walk clock met done ((k, p) :: left) results)
      (registered : (p, f) ∈ r.getFamilies k) (nonempty : f.metrics_.entries.isEmpty = false)
      (order : (walk f).order = seen ++ rest)
      (unseen : metrics = rest.map fun entry => (entry.1, entry.2.1))
      (read : List.Forall₂ (fun entry m => f.collectMetric clock entry = some m) seen metric) :
      Alone r ⟨r.collectObjects clock (met ++ seen.map fun entry => entry.2.1),
        .familyCollect (k, p) metrics
          { name := f.name_, help := f.help_, type := k.metricType, metric } left results⟩

theorem Inv.name_ne (h : Inv r) {k k' : MetricKind} {p p' : Ptr} {f : Family k} {f' : Family k'}
    (hf : (p, f) ∈ r.getFamilies k) (hf' : (p', f') ∈ r.getFamilies k') (hne : (k', p') ≠ (k, p)) :
    f'.name_ ≠ f.name_ := by
  have hnames := h.contract.names_distinct
  rw [names_eq] at hnames
  have hmem : ∀ {k : MetricKind} {p : Ptr} {f : Family k}, (p, f) ∈ r.getFamilies k →
      ((k, p), f.name_) ∈ r.identities := fun {k p f} hf =>
    List.mem_flatMap.mpr ⟨k, mem_kinds k, List.mem_map.mpr ⟨(p, f), hf, rfl⟩⟩
  exact fun hname => hne (Prod.mk.inj (List.inj_on_of_nodup_map hnames (hmem hf') (hmem hf) hname)).1

theorem Done.ne (h : Done r walk clock met done left results) (hinv : Inv r)
    {place place' : MetricKind × Ptr} (hdone : place ∈ done) (hleft : place' ∈ left) :
    place ≠ place' :=
  fun heq => List.disjoint_of_nodup_append (h.order ▸ hinv.nodup_order) hdone (heq ▸ hleft)

/-- Readings of objects that have not been collected do not count. -/
theorem Done.of_clock (h : Done r walk clock met done left results)
    (hclock : ∀ a ∈ met, clock' a = clock a) : Done r walk clock' met done left results where
  order := h.order
  results := by
    obtain ⟨returned, hreturned, hresults⟩ := h.results
    refine ⟨returned, ?_, hresults⟩
    refine ((List.forall₂_and_left _ _).mpr ⟨fun _ hplace => hplace, hreturned⟩).imp ?_
    rintro place metrics ⟨hplace, f, hf, hcollect⟩
    refine ⟨f, hf, ?_⟩
    rwa [Family.collect_congr _ fun a ha => hclock a (h.collected place hplace f hf a ha)]
  collected := h.collected
  untouched := h.untouched

/-- Nor does the order of a family that is left. -/
theorem Done.of_walk (h : Done r walk clock met done left results) (hinv : Inv r) {k : MetricKind}
    {p : Ptr} {f : Family k} (hf : (p, f) ∈ r.getFamilies k) (hleft : (k, p) ∈ left)
    (hwalk : ∀ (k' : MetricKind) (f' : Family k'), f'.name_ ≠ f.name_ → walk' f' = walk f') :
    Done r walk' clock met done left results where
  order := h.order
  results := by
    obtain ⟨returned, hreturned, hresults⟩ := h.results
    refine ⟨returned, ?_, hresults⟩
    refine ((List.forall₂_and_left _ _).mpr ⟨fun _ hplace => hplace, hreturned⟩).imp ?_
    rintro ⟨k', p'⟩ metrics ⟨hplace, g, hg, hcollect⟩
    have horder := hwalk k' g (hinv.name_ne hf hg (h.ne hinv hplace hleft))
    exact ⟨g, hg, (congrArg (fun i => (g.collect i clock).map Prod.fst) horder).trans hcollect⟩
  collected := h.collected
  untouched := h.untouched

/-- One more family is done, and no other is touched. -/
theorem Done.next {k : MetricKind} {p : Ptr} {f : Family k} {metrics : List MetricFamily}
    (h : Done r walk clock met done ((k, p) :: left) results) (hinv : Inv r) (apart : r.Apart)
    (hf : (p, f) ∈ r.getFamilies k)
    (hcollect : (f.collect (walk f) clock).map Prod.fst = some metrics)
    (hmet : ∀ a, a ∈ met' ↔ a ∈ met ∨ a ∈ f.objects) :
    Done r walk clock met' (done ++ [(k, p)]) left (results ++ metrics) where
  order := by rw [h.order, List.append_assoc]; rfl
  results := by
    obtain ⟨returned, hreturned, hresults⟩ := h.results
    refine ⟨returned ++ [metrics], List.rel_append hreturned (.cons ⟨f, hf, hcollect⟩ .nil), ?_⟩
    rw [hresults, List.flatten_append, List.flatten_singleton]
  collected place hplace g hg a ha := by
    rw [hmet]
    rcases List.mem_append.mp hplace with hold | hnew
    · exact .inl (h.collected place hold g hg a ha)
    · obtain rfl := List.mem_singleton.mp hnew
      exact .inr (hinv.family_unique hg hf ▸ ha)
  untouched place hplace g hg a ha hmem := by
    rcases (hmet a).mp hmem with hold | hnew
    · exact h.untouched place (List.mem_cons_of_mem _ hplace) g hg a ha hold
    · have hnodup := h.order ▸ hinv.nodup_order
      have hnot := (List.nodup_cons.mp (List.nodup_append.mp hnodup).2.1).1
      have heq : (k, p) = (place.1, place.2) := apart _ _ _ _ f g hf hg a hnew ha
      exact hnot (heq ▸ hplace)

/-- One object more of the family that is walked. -/
theorem setFamilies_collectObject (hinv : Inv r) (apart : r.Apart) {k : MetricKind}
    {before after : Families k} {p : Ptr} {f g : Family k} {a : Ptr} {readings : Ptr → Nat → Int}
    (hf : (p, f) ∈ r.getFamilies k) (ha : a ∈ f.objects) (hnew : a ∉ met)
    (hg : g = f.collectObjects clock met)
    (registered : (r.collectObjects clock met).getFamilies k = before ++ (p, g) :: after) :
    (r.collectObjects clock met).setFamilies k (before ++ (p, g.collectObject readings a) :: after) =
      r.collectObjects (Function.update clock a (readings a)) (met ++ [a]) := by
  subst hg
  have hclock : ∀ b ∈ met, Function.update clock a (readings a) b = clock b :=
    fun b hb => Function.update_of_ne (ne_of_mem_of_not_mem hb hnew) _ _
  -- No family but this one has the object.
  have hother : ∀ (k' : MetricKind) (entry : Ptr × Family k'), entry ∈ r.getFamilies k' →
      (k', entry.1) ≠ (k, p) →
      entry.2.collectObjects (Function.update clock a (readings a)) (met ++ [a]) =
        entry.2.collectObjects clock met := by
    intro k' entry hentry hne
    refine Family.collectObjects_congr (fun b hb => ?_) hclock
    have hba : b ≠ a := fun heq => hne (apart _ _ _ _ _ _ hentry hf a (heq ▸ hb) ha)
    rw [List.mem_append, List.mem_singleton, or_iff_left hba]
  have hself : (f.collectObjects clock met).collectObject readings a =
      f.collectObjects (Function.update clock a (readings a)) (met ++ [a]) := by
    rw [← Family.collectObjects_concat f _ hnew, Family.collectObjects_congr (fun _ _ => Iff.rfl) hclock]
    exact Family.collectObject_congr _ (by rw [Function.update_self])
  refine eq_of_families (setFamilies_insert_behavior _ _ _) fun k' => ?_
  rw [getFamilies_collectObjects]
  by_cases hk : k' = k
  · subst hk
    rw [getFamilies_setFamilies, hself]
    rw [getFamilies_collectObjects] at registered
    obtain ⟨before', more, hsplit, rfl, hmore⟩ := List.map_eq_append_iff.mp registered
    obtain ⟨⟨q, g⟩, after', rfl, hentry, rfl⟩ := List.map_eq_cons_iff.mp hmore
    obtain rfl : q = p := (Prod.mk.inj hentry).1
    have hstored : ∀ entry ∈ before' ++ after', entry ∈ r.getFamilies k' ∧ entry.1 ≠ q := by
      intro entry hentry
      have hnodup := hinv.addresses k'
      rw [hsplit, List.map_append, List.map_cons, List.nodup_middle, List.nodup_cons,
        ← List.map_append] at hnodup
      refine ⟨hsplit ▸ ?_, fun heq => hnodup.1 (List.mem_map.mpr ⟨entry, hentry, heq⟩)⟩
      exact (List.perm_middle.symm.subset (List.mem_cons_of_mem _ hentry))
    have hsame : ∀ entry ∈ before' ++ after', (entry.1, entry.2.collectObjects clock met) =
        (entry.1, entry.2.collectObjects (Function.update clock a (readings a)) (met ++ [a])) := by
      intro entry hentry
      obtain ⟨hmem, hne⟩ := hstored entry hentry
      rw [hother k' entry hmem fun heq => hne (Prod.mk.inj heq).2]
    obtain rfl : f = g := hinv.family_unique hf (by
      rw [hsplit]
      exact List.mem_append_right _ List.mem_cons_self)
    rw [hsplit, List.map_append, List.map_cons,
      List.map_congr_left fun entry hentry => hsame entry (List.mem_append_left _ hentry),
      List.map_congr_left fun entry hentry => hsame entry (List.mem_append_right _ hentry)]
  · rw [getFamilies_setFamilies_of_ne _ hk, getFamilies_collectObjects]
    exact List.map_congr_left fun entry hentry => congrArg (Prod.mk entry.1)
      (hother k' entry hentry fun heq => hk (Prod.mk.inj heq).1).symm

theorem collectObjects_nil (r : Registry) (clock : Ptr → Nat → Int) : r.collectObjects clock [] = r := by
  refine eq_of_families rfl fun k => ?_
  rw [getFamilies_collectObjects]
  simp only [Family.collectObjects_nil]
  exact List.map_id _

theorem done_start (r : Registry) (walk : Walk) (clock : Ptr → Nat → Int) :
    Done r walk clock [] [] r.order [] where
  order := rfl
  results := ⟨[], .nil, rfl⟩
  collected _ hplace := absurd hplace List.not_mem_nil
  untouched _ _ _ _ _ _ := List.not_mem_nil

theorem Done.empty (h : Done r walk clock met done ((k, p) :: left) results) (hinv : Inv r)
    (apart : r.Apart) {g : Family k} (registered : (p, g) ∈ (r.collectObjects clock met).getFamilies k)
    (empty : g.metrics_.entries.isEmpty = true) :
    Alone r ⟨r.collectObjects clock met, .collectAll left results⟩ := by
  obtain ⟨f, hf, rfl⟩ := mem_collectObjects registered
  have hnone : f.metrics_.entries = [] := List.map_eq_nil_iff.mp (List.isEmpty_iff.mp empty)
  have hcollect := congrArg (Option.map Prod.fst) (Family.collect_of_empty hnone (walk f) clock)
  have hmet : ∀ a, a ∈ met ↔ a ∈ met ∨ a ∈ f.objects := by
    intro a
    rw [Family.objects, hnone]
    simp
  have hnext := h.next hinv apart hf hcollect hmet
  rw [List.append_nil] at hnext
  exact .collectAll hnext

/-- The family has not been touched, and the order in which its map is walked is chosen now. -/
theorem Done.enter (h : Done r walk clock met done ((k, p) :: left) results) (hinv : Inv r)
    {g : Family k} (registered : (p, g) ∈ (r.collectObjects clock met).getFamilies k)
    (nonempty : g.metrics_.entries.isEmpty = false) (iteration : g.metrics_.Iteration) :
    Alone r ⟨r.collectObjects clock met,
      .familyCollect (k, p) (iteration.order.map fun entry => (entry.1, entry.2.1))
        { name := g.name_, help := g.help_, type := k.metricType, metric := [] } left results⟩ := by
  obtain ⟨f, hf, hg⟩ := mem_collectObjects registered
  rw [Family.collectObjects_of_unmet clock (h.untouched (k, p) List.mem_cons_self f hf)] at hg
  subst hg
  obtain ⟨walk', hself, hothers⟩ := Walk.exists_update walk g iteration
  have horder : (walk' g).order = [] ++ iteration.order := congrArg UnorderedMap.Iteration.order hself
  have hentered := Alone.familyCollect (h.of_walk hinv hf List.mem_cons_self hothers) hf nonempty
    horder rfl .nil
  rwa [List.map_nil, List.append_nil] at hentered

section Walked

variable {f : Family k} {seen rest : List (Labels × Ptr × k.Object)} {metric : List ClientMetric}

/-- The readings of the object are chosen now. -/
theorem Done.collectMetric (h : Done r walk clock met done ((k, p) :: left) results) (hinv : Inv r)
    (apart : r.Apart) (hf : (p, f) ∈ r.getFamilies k) (nonempty : f.metrics_.entries.isEmpty = false)
    {labels : Labels} {a : Ptr} {object object' : k.Object}
    (order : (walk f).order = seen ++ (labels, a, object') :: rest)
    (read : List.Forall₂ (fun entry m => f.collectMetric clock entry = some m) seen metric)
    {before after : Families k} {g : Family k} {readings : Ptr → Nat → Int} {m : ClientMetric}
    (registered : (r.collectObjects clock (met ++ seen.map fun entry => entry.2.1)).getFamilies k =
      before ++ (p, g) :: after)
    (stored : (labels, a, object) ∈ g.metrics_.entries)
    (collected : g.collectMetric readings (labels, a, object) = some m) :
    Alone r ⟨(r.collectObjects clock (met ++ seen.map fun entry => entry.2.1)).setFamilies k
        (before ++ (p, g.collectObject readings a) :: after),
      .familyCollect (k, p) (rest.map fun entry => (entry.1, entry.2.1))
        { name := f.name_, help := f.help_, type := k.metricType, metric := metric ++ [m] } left
          results⟩ := by
  obtain ⟨f', hf', hg⟩ := mem_collectObjects (mem_registered registered)
  obtain rfl : f = f' := hinv.family_unique hf hf'
  have hfamily : Family.Inv f := hinv.families k (p, f) hf
  have hnodup : ((walk f).order.map fun entry => entry.2.1).Nodup :=
    ((walk f).perm.map _).nodup_iff.mpr hfamily.distinct_owners
  rw [order, List.map_append, List.map_cons, List.nodup_middle, List.nodup_cons] at hnodup
  have hstored : (labels, a, object') ∈ f.metrics_.entries :=
    (walk f).perm.mem_iff.mp (order ▸ List.mem_append_right _ List.mem_cons_self)
  have ha : a ∈ f.objects := List.mem_map_of_mem hstored
  have hseen : a ∉ seen.map fun entry => entry.2.1 := fun hmem =>
    hnodup.1 (List.mem_append_left _ hmem)
  have hnew : a ∉ met ++ seen.map fun entry => entry.2.1 := by
    rw [List.mem_append, not_or]
    exact ⟨h.untouched (k, p) List.mem_cons_self f hf a ha, hseen⟩
  have hobject : (labels, a, object) = (labels, a, object') := hfamily.entry_unique
    (Family.mem_of_mem_collectObjects (hg ▸ stored) hnew) hstored rfl
  obtain rfl : object = object' := (Prod.mk.inj (Prod.mk.inj hobject).2).2
  let clock' : Ptr → Nat → Int := Function.update clock a (readings a)
  have hbetween : Done r walk clock' met done ((k, p) :: left) results :=
    h.of_clock fun b hb => Function.update_of_ne
      (ne_of_mem_of_not_mem (List.mem_append_left _ hb) hnew) _ _
  have hread : List.Forall₂ (fun entry m => f.collectMetric clock' entry = some m) seen metric := by
    refine ((List.forall₂_and_left _ _).mpr ⟨fun _ hentry => hentry, read⟩).imp ?_
    rintro entry metric ⟨hentry, hmetric⟩
    have hne : entry.2.1 ≠ a := fun heq => hseen (List.mem_map.mpr ⟨entry, hentry, heq⟩)
    rwa [Family.collectMetric_congr rfl (Function.update_of_ne hne _ _)]
  have hm : f.collectMetric clock' (labels, a, object) = some m := by
    rw [← collected]
    exact Family.collectMetric_congr (by rw [hg]; rfl) (Function.update_self _ _ _)
  have hnext := Alone.familyCollect hbetween hf nonempty
    (order.trans (List.append_cons seen (labels, a, object) rest)) rfl (List.rel_append hread (.cons hm .nil))
  rw [setFamilies_collectObject hinv apart hf ha hnew hg registered]
  rwa [List.map_append, List.map_singleton, ← List.append_assoc] at hnext

theorem Done.leave (h : Done r walk clock met done ((k, p) :: left) results) (hinv : Inv r)
    (apart : r.Apart) (hf : (p, f) ∈ r.getFamilies k) (nonempty : f.metrics_.entries.isEmpty = false)
    (order : (walk f).order = seen)
    (read : List.Forall₂ (fun entry m => f.collectMetric clock entry = some m) seen metric) :
    Alone r ⟨r.collectObjects clock (met ++ seen.map fun entry => entry.2.1),
      .collectAll left (results ++
        [{ name := f.name_, help := f.help_, type := k.metricType, metric }])⟩ := by
  subst order
  have hcollect : (f.collect (walk f) clock).map Prod.fst =
      some [{ name := f.name_, help := f.help_, type := k.metricType, metric }] := by
    rw [Family.collect, if_neg (by simp [nonempty]), RelatedLists.mapM_eq_some_iff.mpr read]
    rfl
  refine .collectAll (h.next hinv apart hf hcollect fun a => ?_)
  rw [List.mem_append, ((walk f).perm.map _).mem_iff]
  rfl

end Walked

theorem Alone.step {s s' : Shared} (h : Alone r s) (hinv : Inv r) (apart : r.Apart)
    (taken : s.Step none s') : Alone r s' := by
  cases h with
  | outside =>
      cases taken with
      | lock =>
          have hlocked := Alone.collectAll (done_start r inOrder fun _ _ => 0)
          rwa [collectObjects_nil] at hlocked
  | collectAll between =>
      cases taken with
      | empty registered empty => exact between.empty hinv apart registered empty
      | enter registered nonempty iteration => exact between.enter hinv registered nonempty iteration
  | @familyCollect walk clock met done left results k p f seen rest metrics metric between registered
      nonempty order unseen read =>
      cases taken with
      | collectMetric replaced stored collected =>
          cases rest with
          | nil => cases unseen
          | cons entry rest =>
              obtain ⟨labels', a', object'⟩ := entry
              obtain ⟨hentry, rfl⟩ := List.cons.inj unseen
              obtain ⟨rfl, rfl⟩ := Prod.mk.inj hentry
              exact between.collectMetric hinv apart registered nonempty order read replaced stored
                collected
      | leave =>
          obtain rfl : rest = [] := List.map_eq_nil_iff.mp unseen.symm
          rw [List.append_nil] at order
          exact between.leave hinv apart registered nonempty order read

theorem collectAll_of_returns (hinv : Inv r) {families : Families k}
    (hstored : ∀ entry ∈ families, entry ∈ r.getFamilies k)
    (hmet : ∀ entry ∈ families, ∀ a ∈ entry.2.objects, a ∈ met) {returned : List (List MetricFamily)}
    (hreturns : List.Forall₂ (r.Returns walk clock) (families.map fun entry => (k, entry.1)) returned) :
    collectAll walk clock families = some (returned.flatten,
      families.map fun entry => (entry.1, entry.2.collectObjects clock met)) := by
  induction families generalizing returned with
  | nil =>
      cases hreturns
      rfl
  | cons entry families ih =>
      obtain ⟨p, f⟩ := entry
      obtain ⟨hf, hstored⟩ := List.forall_mem_cons.mp hstored
      obtain ⟨hfmet, hmet⟩ := List.forall_mem_cons.mp hmet
      cases hreturns with
      | @cons _ metrics _ returned hfirst hrest =>
          obtain ⟨f', hf', hreturn⟩ : ∃ f' : Family k, (p, f') ∈ r.getFamilies k ∧
            (f'.collect (walk f') clock).map Prod.fst = some metrics := hfirst
          obtain rfl : f = f' := hinv.family_unique hf hf'
          obtain ⟨⟨metrics', f'⟩, hcollect, rfl⟩ := Option.map_eq_some_iff.mp hreturn
          rw [collectAll, hcollect, ih hstored hmet hrest,
            Family.collect_eq_collectObjects hcollect hfmet]
          rfl

theorem order_eq_append (r : Registry) : r.order =
    (r.counters_.map fun entry => (MetricKind.counter, entry.1)) ++
      ((r.gauges_.map fun entry => (MetricKind.gauge, entry.1)) ++
        ((r.histograms_.map fun entry => (MetricKind.histogram, entry.1)) ++
          ((r.infos_.map fun entry => (MetricKind.info, entry.1)) ++
            r.summaries_.map fun entry => (MetricKind.summary, entry.1)))) := by
  simp [order, kinds, getFamilies]

/-- When all families are done, `Collect` returns what the scrape has. -/
theorem Done.collect (h : Done r walk clock met done [] results) (hinv : Inv r) :
    r.collect walk clock = some (results, r.collectObjects clock met) := by
  obtain ⟨returned, hreturned, rfl⟩ := h.results
  have hdone : r.order = done := by rw [h.order, List.append_nil]
  subst hdone
  have hall : ∀ (k : MetricKind) (returned : List (List MetricFamily)),
      List.Forall₂ (r.Returns walk clock) ((r.getFamilies k).map fun entry => (k, entry.1)) returned →
        collectAll walk clock (r.getFamilies k) = some (returned.flatten,
          (r.getFamilies k).map fun entry => (entry.1, entry.2.collectObjects clock met)) :=
    fun k returned hreturns => collectAll_of_returns hinv (fun _ hentry => hentry)
      (fun entry hentry => h.collected (k, entry.1) (mem_order hentry) entry.2 hentry) hreturns
  rw [order_eq_append] at hreturned
  obtain ⟨counters, returned, rfl, hcounters, hreturned⟩ := RelatedLists.exists_append hreturned
  obtain ⟨gauges, returned, rfl, hgauges, hreturned⟩ := RelatedLists.exists_append hreturned
  obtain ⟨histograms, returned, rfl, hhistograms, hreturned⟩ := RelatedLists.exists_append hreturned
  obtain ⟨infos, summaries, rfl, hinfos, hsummaries⟩ := RelatedLists.exists_append hreturned
  have hc := hall .counter _ hcounters
  have hg := hall .gauge _ hgauges
  have hh := hall .histogram _ hhistograms
  have hi := hall .info _ hinfos
  have hs := hall .summary _ hsummaries
  simp only [getFamilies] at hc hg hh hi hs
  simp only [Registry.collect, hc, hg, hh, hi, hs, Option.bind_eq_bind, Option.bind_some,
    List.flatten_append, List.append_assoc]
  rfl

/-- With no other thread a scrape is `Collect` as a function of the registry: every result of it can
be reached step by step, and where no object is in two families nothing else can. -/
theorem scrape_alone (hinv : Inv r) {r' : Registry} :
    ((∃ walk clock, r.collect walk clock = some (results, r')) →
      Run Shared.Step ⟨r, .outside⟩ [.collect results] ⟨r', .outside⟩) ∧
    (r.Apart → Run Shared.Step ⟨r, .outside⟩ [.collect results] ⟨r', .outside⟩ →
      ∃ walk clock, r.collect walk clock = some (results, r')) := by
  constructor
  · rintro ⟨walk, clock, hcollect⟩
    have hlocked : Run Shared.Step ⟨r, .outside⟩ [] ⟨r, .collectAll r.order []⟩ := .silent .init .lock
    exact .visible (hlocked.trans (scraping_alone hinv hcollect)) .unlock
  · intro apart hrun
    have hsplit : Run Shared.Step ⟨r, .outside⟩ ([] ++ .collect results :: []) ⟨r', .outside⟩ := hrun
    obtain ⟨m, m', hbefore, hunlock, hafter⟩ := hsplit.split
    have halone : Alone r m := hbefore.invariant_silent .outside
      fun _ _ halone taken => halone.step hinv apart taken
    cases hunlock with
    | @unlock r₁ results =>
        have hend : r' = r₁ := by
          have houtside : (⟨r', .outside⟩ : Shared) = ⟨r₁, .outside⟩ ∨ Place.outside ≠ .outside :=
            hafter.invariant_silent (P := fun s => s = ⟨r₁, .outside⟩ ∨ s.place ≠ .outside) (.inl rfl)
              fun s s' _ taken => .inr (by cases taken <;> nofun)
          exact houtside.elim (fun heq => congrArg Shared.registry heq) fun hne => absurd rfl hne
        subst hend
        cases halone with
        | collectAll between => exact ⟨_, _, between.collect hinv⟩

/-- Every map is walked from its end. -/
def fromEnd : Walk := fun f => ⟨f.metrics_.entries.reverse, List.reverse_perm _⟩

theorem apart_site (a b : Counter) (load : Gauge) : (site a b load).Apart := by
  have howner : ∀ (k : MetricKind) (p : Ptr) (f : Family k), (p, f) ∈ (site a b load).getFamilies k →
      ∀ object ∈ f.objects, (k, p) = if object = 5 then (.gauge, 4) else (.counter, 1) := by
    intro k p f hf object hobject
    cases k with
    | counter =>
        obtain ⟨rfl, rfl⟩ := Prod.mk.inj (List.mem_singleton.mp hf)
        have hmem : object ∈ [2, 3] := hobject
        rw [if_neg (by rintro rfl; exact absurd hmem (by decide))]
    | gauge =>
        obtain ⟨rfl, rfl⟩ := Prod.mk.inj (List.mem_singleton.mp hf)
        rw [if_pos (List.mem_singleton.mp hobject)]
    | _ => exact absurd hf List.not_mem_nil
  intro k k' p p' f f' hf hf' object hobject hobject'
  rw [howner k p f hf object hobject, howner k' p' f' hf' object hobject']

def siteFromEnd : List MetricFamily :=
  [⟨ascii "hits", [], .counter,
      [{ (Counter.increment {}).collect with label := [⟨ascii "path", ascii "/b"⟩] },
        { Counter.collect {} with label := [⟨ascii "path", ascii "/a"⟩] }]⟩,
    ⟨ascii "load", [], .gauge, [Gauge.collect {}]⟩]

theorem scrape_alone_of_site :
    Run Shared.Step ⟨site {} (Counter.increment {}) {}, .outside⟩ [.collect siteFromEnd]
      ⟨site {} (Counter.increment {}) {}, .outside⟩ ∧
    ∃ walk clock, (site {} (Counter.increment {}) {}).collect walk clock =
      some (siteFromEnd, site {} (Counter.increment {}) {}) := by
  have hinv := ((Shared.inv_new .merge).run (run_site.trans (run_scraped {} {} {}))).registry
  have hcollect : (site {} (Counter.increment {}) {}).collect fromEnd (fun _ _ => 0) =
      some (siteFromEnd, site {} (Counter.increment {}) {}) := rfl
  obtain ⟨hsteps, hfunction⟩ := scrape_alone hinv
  have hrun := hsteps ⟨_, _, hcollect⟩
  exact ⟨hrun, hfunction (apart_site _ _ _) hrun⟩

end Alone

end Registry

end PrometheusCpp
