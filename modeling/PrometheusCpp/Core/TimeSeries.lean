/-
# PrometheusCpp.Core.TimeSeries -- the time series of a scrape

A time series is a sample name with a set of labels. Within one metric the samples differ in the
suffix or in the reserved label, within one family in the labels of the metrics, and between
families in the name. The registry only compares family names, so the last needs that no two
families come to the same sample name by their suffixes (`collect_series_distinct`).
-/
import PrometheusCpp.Core.LineStructure
import PrometheusCpp.Core.HistogramExposition
import PrometheusCpp.Core.StoredObjects

namespace PrometheusCpp

open ByteString

namespace TextSerializer

/-- Two samples of one time series: the labels may be in any order. -/
def SampleLine.SameSeries (a b : SampleLine) : Prop :=
  a.name = b.name ∧ ∀ label, label ∈ a.labels ↔ label ∈ b.labels

def hashMark : UInt8 := 35

/-- Every line that is neither empty nor a comment is a sample, and no two are of one series. -/
structure NoDuplicateSeries (text : Bytes) : Prop where
  samples : ∀ line ∈ text.splitOn newline, line ≠ [] → line.head? ≠ some hashMark →
    ∃ sample, readSample line = some sample
  distinct : (readSamples text).Pairwise fun a b => ¬ a.SameSeries b

/-! ## The samples of a text -/

theorem wellFormed_of_mem_familySamples {family : MetricFamily} (hnames : WellNamed family)
    {line : SampleLine} (h : line ∈ familySamples family) : line.WellFormed := by
  obtain ⟨metric, hmetric, hline⟩ := List.mem_flatMap.mp h
  exact wellFormed_of_mem_samples hnames hmetric hline

theorem readSample_comment (text : Bytes) : readSample (hashMark :: text) = none := by
  rw [readSample, readHead_cons_of_invalid (by decide)]
  rfl

theorem helpLine_eq (family : MetricFamily) : ∃ text, helpLine family = hashMark :: text := ⟨_, rfl⟩

theorem typeLine_eq (family : MetricFamily) : ∃ text, typeLine family = hashMark :: text := ⟨_, rfl⟩

theorem filterMap_readSample_familyLines {family : MetricFamily} (hnames : WellNamed family) :
    (familyLines family).filterMap readSample = familySamples family := by
  obtain ⟨help, hhelp⟩ := helpLine_eq family
  obtain ⟨type, htype⟩ := typeLine_eq family
  have hfirst : (if family.help ≠ [] then [helpLine family] else []).filterMap readSample = [] := by
    split_ifs
    · rw [hhelp, List.filterMap_cons_none (readSample_comment help), List.filterMap_nil]
    · rfl
  rw [familyLines, List.filterMap_append, hfirst, List.nil_append, htype,
    List.filterMap_cons_none (readSample_comment type), sampleLines_eq,
    filterMap_readSample_text fun line hline => wellFormed_of_mem_familySamples hnames hline]

theorem splitOn_serialize {metrics : List MetricFamily}
    (hnames : ∀ family ∈ metrics, WellNamed family)
    (hhelp : ∀ family ∈ metrics, newline ∉ family.help) :
    (serialize metrics).splitOn newline = metrics.flatMap familyLines ++ [[]] := by
  rw [serialize_eq_lines]
  apply splitOn_terminated
  intro line hline
  obtain ⟨family, hfamily, hline⟩ := List.mem_flatMap.mp hline
  exact newline_not_mem_familyLines (hnames family hfamily) (hhelp family hfamily) hline

theorem readSamples_serialize {metrics : List MetricFamily}
    (hnames : ∀ family ∈ metrics, WellNamed family)
    (hhelp : ∀ family ∈ metrics, newline ∉ family.help) :
    readSamples (serialize metrics) = metrics.flatMap familySamples := by
  have hlines : (metrics.flatMap familyLines).filterMap readSample =
      metrics.flatMap familySamples := by
    rw [List.filterMap_flatMap]
    apply List.flatMap_congr
    intro family hfamily
    exact filterMap_readSample_familyLines (hnames family hfamily)
  rw [readSamples, splitOn_serialize hnames hhelp, List.filterMap_append, hlines]
  exact List.append_nil _

/-! ## The samples of one metric -/

section Metric

variable {family : MetricFamily} {metric metric' : ClientMetric}

/-- The reserved label is none of a metric's own. -/
theorem reserved_not_mem (hnames : WellNamed family) (hmetric : metric ∈ family.metric)
    {label : Bytes × Bytes} (h : reservedLabelName family.type = some label.1) :
    label ∉ labelPairs metric := by
  intro hmem
  obtain ⟨own, hown, rfl⟩ := List.mem_map.mp hmem
  exact ((checkLabelName_iff _ _).mp (hnames.labels metric hmetric own hown)).2.2 h

theorem not_sameSeries_of_suffix {suffix suffix' : Bytes} (h : suffix ≠ suffix')
    (extra extra' : List (Bytes × Bytes)) (value value' : Bytes) :
    ¬ (sample family metric suffix extra value).SameSeries
      (sample family metric' suffix' extra' value') := fun hsame =>
  h (List.append_cancel_left hsame.1)

/-- Lines with the same suffix are told apart by their reserved labels. -/
theorem pairwise_extra (hnames : WellNamed family) (hmetric : metric ∈ family.metric) {name : Bytes}
    (hreserved : reservedLabelName family.type = some name) (suffix : Bytes) {α : Type}
    {text value : α → Bytes} {xs : List α} (h : (xs.map text).Nodup) :
    (xs.map fun x => sample family metric suffix [(name, text x)] (value x)).Pairwise
      fun a b => ¬ a.SameSeries b := by
  rw [List.Nodup, List.pairwise_map] at h
  refine List.pairwise_map.mpr (h.imp fun {x y} hne hsame => hne ?_)
  have hmem : (name, text x) ∈ labelPairs metric ++ [(name, text y)] :=
    (hsame.2 (name, text x)).mp (List.mem_append_right _ (List.mem_singleton_self _))
  rcases List.mem_append.mp hmem with hown | hlast
  · exact absurd hown (reserved_not_mem hnames hmetric hreserved)
  · exact (Prod.mk.inj (List.mem_singleton.mp hlast)).2

theorem pairwise_totalSamples (sample_count : Nat) (sample_sum : Double) :
    (totalSamples family metric sample_count sample_sum).Pairwise fun a b => ¬ a.SameSeries b := by
  have hne : ascii "_count" ≠ ascii "_sum" := by decide
  simp only [totalSamples, List.pairwise_pair]
  exact not_sameSeries_of_suffix hne _ _ _ _

/-- The lines behind the totals have another suffix than these. -/
theorem totalSamples_not_sameSeries {suffix : Bytes} (hcount : ascii "_count" ≠ suffix)
    (hsum : ascii "_sum" ≠ suffix) {sample_count : Nat} {sample_sum : Double} {line : SampleLine}
    (h : line ∈ totalSamples family metric sample_count sample_sum)
    (extra : List (Bytes × Bytes)) (value : Bytes) :
    ¬ line.SameSeries (sample family metric suffix extra value) := by
  rcases List.mem_cons.mp h with rfl | h
  · exact not_sameSeries_of_suffix hcount _ _ _ _
  · obtain rfl := List.mem_singleton.mp h
    exact not_sameSeries_of_suffix hsum _ _ _ _

/-- The families whose metrics, and whose lines in one metric, can be told apart. -/
structure Distinct (family : MetricFamily) : Prop where
  metrics : family.metric.Pairwise fun m m' => ¬ ∀ label, label ∈ labelPairs m ↔ label ∈ labelPairs m'
  bounds : family.type = .histogram → ∀ m ∈ family.metric,
    ((exposedBuckets m.histogram).map fun b => valueText b.upper_bound).Nodup
  quantiles : family.type = .summary → ∀ m ∈ family.metric,
    (m.summary.quantile.map fun q => valueText q.quantile).Nodup

theorem pairwise_samples (hnames : WellNamed family) (hdistinct : Distinct family)
    (hmetric : metric ∈ family.metric) :
    (samples family metric family.type).Pairwise fun a b => ¬ a.SameSeries b := by
  cases htype : family.type with
  | counter => exact List.pairwise_singleton _ _
  | gauge => exact List.pairwise_singleton _ _
  | info => exact List.pairwise_singleton _ _
  | untyped => exact List.pairwise_singleton _ _
  | summary =>
      have hreserved : reservedLabelName family.type = some (ascii "quantile") := by rw [htype]; rfl
      refine List.pairwise_append.mpr ⟨pairwise_totalSamples _ _, ?_, ?_⟩
      · exact pairwise_extra hnames hmetric hreserved [] (hdistinct.quantiles htype metric hmetric)
      · intro total htotal line hline
        obtain ⟨q, -, rfl⟩ := List.mem_map.mp hline
        exact totalSamples_not_sameSeries (by decide) (by decide) htotal _ _
  | histogram =>
      have hreserved : reservedLabelName family.type = some (ascii "le") := by rw [htype]; rfl
      refine List.pairwise_append.mpr ⟨pairwise_totalSamples _ _, ?_, ?_⟩
      · exact pairwise_extra hnames hmetric hreserved (ascii "_bucket")
          (hdistinct.bounds htype metric hmetric)
      · intro total htotal line hline
        obtain ⟨b, -, rfl⟩ := List.mem_map.mp hline
        exact totalSamples_not_sameSeries (by decide) (by decide) htotal _ _

/-- Samples of one series come from metrics with the same labels. -/
theorem labelPairs_iff_of_sameSeries (hnames : WellNamed family) (hmetric : metric ∈ family.metric)
    (hmetric' : metric' ∈ family.metric) {a b : SampleLine}
    (ha : a ∈ samples family metric family.type) (hb : b ∈ samples family metric' family.type)
    (hsame : a.SameSeries b) (label : Bytes × Bytes) :
    label ∈ labelPairs metric ↔ label ∈ labelPairs metric' := by
  obtain ⟨suffix, -, extra, value, rfl, hextra, -⟩ := isSample_of_mem_samples ha
  obtain ⟨suffix', -, extra', value', rfl, hextra', -⟩ := isSample_of_mem_samples hb
  by_cases hreserved : reservedLabelName family.type = some label.1
  · exact iff_of_false (reserved_not_mem hnames hmetric hreserved)
      (reserved_not_mem hnames hmetric' hreserved)
  · -- Any other label of a sample is one of its metric's own.
    have hlabels := hsame.2 label
    have hnot : label ∉ extra := fun hmem => hreserved (hextra label hmem)
    have hnot' : label ∉ extra' := fun hmem => hreserved (hextra' label hmem)
    simpa only [sample, List.mem_append, hnot, hnot', or_false] using hlabels

end Metric

/-! ## The samples of all families -/

/-- The names of the samples that a family of the type writes. -/
def sampleNames (name : Bytes) (type : MetricType) : List Bytes :=
  (suffixes type).map fun suffix => name ++ suffix

theorem name_mem_sampleNames {family : MetricFamily} {line : SampleLine}
    (h : line ∈ familySamples family) : line.name ∈ sampleNames family.name family.type := by
  obtain ⟨metric, -, hline⟩ := List.mem_flatMap.mp h
  obtain ⟨suffix, hsuffix, extra, value, rfl, -⟩ := isSample_of_mem_samples hline
  exact List.mem_map_of_mem hsuffix

theorem pairwise_familySamples {family : MetricFamily} (hnames : WellNamed family)
    (hdistinct : Distinct family) :
    (familySamples family).Pairwise fun a b => ¬ a.SameSeries b := by
  apply List.pairwise_flatMap.mpr
  refine ⟨fun metric hmetric => pairwise_samples hnames hdistinct hmetric, ?_⟩
  apply hdistinct.metrics.imp_of_mem
  intro metric metric' hmetric hmetric' hne a ha b hb hsame
  exact hne (labelPairs_iff_of_sameSeries hnames hmetric hmetric' ha hb hsame)

theorem noDuplicateSeries_serialize {metrics : List MetricFamily}
    (hnames : ∀ family ∈ metrics, WellNamed family)
    (hhelp : ∀ family ∈ metrics, newline ∉ family.help)
    (hdistinct : ∀ family ∈ metrics, Distinct family)
    (hdisjoint : metrics.Pairwise fun f g =>
      ∀ name ∈ sampleNames f.name f.type, name ∉ sampleNames g.name g.type) :
    NoDuplicateSeries (serialize metrics) where
  samples := by
    intro line hline hne hcomment
    rw [splitOn_serialize hnames hhelp] at hline
    rcases List.mem_append.mp hline with hline | hempty
    · obtain ⟨family, hfamily, hline⟩ := List.mem_flatMap.mp hline
      -- Of the lines of a family only HELP and TYPE begin with a hash mark.
      have hhash : ∀ text, line ≠ hashMark :: text := fun text heq => hcomment (by rw [heq]; rfl)
      rcases List.mem_append.mp hline with hfirst | hrest
      · split_ifs at hfirst
        · obtain ⟨text, htext⟩ := helpLine_eq family
          exact absurd ((List.mem_singleton.mp hfirst).trans htext) (hhash text)
        · exact absurd hfirst List.not_mem_nil
      · rcases List.mem_cons.mp hrest with rfl | hsample
        · obtain ⟨text, htext⟩ := typeLine_eq family
          exact absurd htext (hhash text)
        · rw [sampleLines_eq] at hsample
          obtain ⟨sample, hmem, rfl⟩ := List.mem_map.mp hsample
          exact ⟨sample,
            readSample_text (wellFormed_of_mem_familySamples (hnames family hfamily) hmem)⟩
    · exact absurd (List.mem_singleton.mp hempty) hne
  distinct := by
    rw [readSamples_serialize hnames hhelp]
    apply List.pairwise_flatMap.mpr
    refine ⟨fun family hfamily => pairwise_familySamples (hnames family hfamily)
      (hdistinct family hfamily), ?_⟩
    apply hdisjoint.imp
    intro f g hdisjoint a ha b hb hsame
    exact hdisjoint _ (name_mem_sampleNames ha) (hsame.1 ▸ name_mem_sampleNames hb)

end TextSerializer

/-! ## The families of a registry -/

open TextSerializer

namespace Family

variable {k : MetricKind} {f : Family k} {iteration : f.metrics_.Iteration}
  {clock : Ptr → Nat → Int} {family : MetricFamily}

theorem Exposes.label_eq {entry : Labels × Ptr × k.Object} {metric : ClientMetric}
    (h : f.Exposes clock entry metric) : metric.label = f.exposedLabels entry.1 := by
  obtain ⟨⟨collected, object, -, rfl⟩, -⟩ := h
  rfl

theorem Collects.exposes (hcollects : f.Collects iteration clock family) {metric : ClientMetric}
    (hmetric : metric ∈ family.metric) :
    ∃ entry ∈ f.metrics_.entries, f.Exposes clock entry metric := by
  obtain ⟨entry, hentry, hexposes⟩ := RelatedLists.exists_left hcollects.metric hmetric
  exact ⟨entry, iteration.perm.mem_iff.mp hentry, hexposes⟩

theorem Collects.wellNamed (h : Inv f) (hcollects : f.Collects iteration clock family) :
    WellNamed family where
  name := by rw [hcollects.name]; exact h.name
  labels metric hmetric label hlabel := by
    obtain ⟨entry, hentry, hexposes⟩ := hcollects.exposes hmetric
    rw [hexposes.label_eq] at hlabel
    obtain ⟨pair, hpair, rfl⟩ := List.mem_map.mp hlabel
    rw [hcollects.type]
    rcases List.mem_append.mp hpair with hconstant | hown
    · exact h.constant_labels pair hconstant
    · exact (h.allowed (entry.1, entry.2.1) (List.mem_map_of_mem hentry) pair hown).1

/-- Together with the same constant labels, different label sets are different sets of labels. -/
theorem eq_of_exposedLabels_iff {labels labels' : Labels} (hl : f.LabelsAllowed labels)
    (hl' : f.LabelsAllowed labels')
    (h : ∀ label, label ∈ f.exposedLabels labels ↔ label ∈ f.exposedLabels labels') :
    labels = labels' := by
  have hmem : ∀ (set : Labels) (entry : Bytes × Bytes),
      ClientMetric.Label.mk entry.1 entry.2 ∈ f.exposedLabels set ↔
        entry ∈ f.constant_labels_.entries ∨ entry ∈ set.entries := by
    intro set entry
    rw [← List.mem_append, exposedLabels, List.mem_map]
    constructor
    · rintro ⟨other, hother, heq⟩
      obtain ⟨hname, hvalue⟩ := ClientMetric.Label.mk.inj heq
      rwa [← Prod.ext hname hvalue]
    · intro hentry
      exact ⟨entry, hentry, rfl⟩
  -- A label of either set is none of the constant labels, so it is one of the other set's own.
  have hown : ∀ {set set' : Labels}, f.LabelsAllowed set →
      (∀ label, label ∈ f.exposedLabels set ↔ label ∈ f.exposedLabels set') →
      ∀ entry ∈ set.entries, entry ∈ set'.entries := by
    intro set set' hallowed hsame entry hentry
    rcases (hmem set' entry).mp ((hsame _).mp ((hmem set entry).mpr (.inr hentry))) with hc | ho
    · exact absurd (List.mem_map_of_mem hc) (hallowed entry hentry).2
    · exact ho
  exact Labels.eq_of_mem_iff fun entry =>
    ⟨hown hl h entry, hown hl' (fun label => (h label).symm) entry⟩

theorem mem_labelPairs_iff {metric : ClientMetric} {label : ClientMetric.Label} :
    (label.name, label.value) ∈ labelPairs metric ↔ label ∈ metric.label := by
  rw [labelPairs, List.mem_map]
  constructor
  · rintro ⟨other, hother, heq⟩
    obtain ⟨hname, hvalue⟩ := Prod.mk.inj heq
    cases other
    cases label
    simp only at hname hvalue
    rwa [← hname, ← hvalue]
  · intro hlabel
    exact ⟨label, hlabel, rfl⟩

theorem Collects.pairwise_metrics (h : Inv f) (hcollects : f.Collects iteration clock family) :
    family.metric.Pairwise fun m m' => ¬ ∀ label, label ∈ labelPairs m ↔ label ∈ labelPairs m' := by
  have hkeys : iteration.order.Pairwise fun e e' => e.1 ≠ e'.1 := by
    have hnodup := (iteration.perm.map Prod.fst).nodup_iff.mpr f.metrics_.nodup
    rwa [List.Nodup, List.pairwise_map] at hnodup
  have hallowed : ∀ entry ∈ iteration.order, f.LabelsAllowed entry.1 := fun entry hentry =>
    h.allowed (entry.1, entry.2.1) (List.mem_map_of_mem (iteration.perm.mem_iff.mp hentry))
  refine RelatedLists.pairwise hcollects.metric ?_ hkeys
  intro entry hentry entry' hentry' metric metric' hexposes hexposes' hne hsame
  apply hne
  apply eq_of_exposedLabels_iff (hallowed entry hentry) (hallowed entry' hentry')
  intro label
  rw [← hexposes.label_eq, ← hexposes'.label_eq, ← mem_labelPairs_iff, ← mem_labelPairs_iff]
  exact hsame _

end Family

/-- The collected quantiles are those the summary was constructed with, in their order. -/
theorem Summary.collect_quantiles {s : Summary} {clock : Nat → Int} {r : ClientMetric × Summary}
    (h : s.collect clock = some r) :
    r.1.summary.quantile.map ClientMetric.Quantile.quantile =
      s.quantiles_.map CKMSQuantiles.Quantile.quantile := by
  have hloop : ∀ (quantiles : List CKMSQuantiles.Quantile) (reading : Nat)
      (w : TimeWindowQuantiles CKMSQuantiles) {result},
      collectLoop clock reading quantiles w = some result →
      result.1.map ClientMetric.Quantile.quantile = quantiles.map CKMSQuantiles.Quantile.quantile := by
    intro quantiles
    induction quantiles with
    | nil =>
        intro reading w result hresult
        rw [← Option.some.inj hresult]
        rfl
    | cons quantile rest ih =>
        intro reading w result hresult
        obtain ⟨⟨value, w'⟩, -, hmore⟩ := Option.bind_eq_some_iff.mp hresult
        obtain ⟨loop, hrest, hfinal⟩ := Option.bind_eq_some_iff.mp hmore
        rw [← Option.some.inj hfinal, List.map_cons, List.map_cons, ih _ _ hrest]
  obtain ⟨loop, hcollected, hr⟩ := Option.bind_eq_some_iff.mp h
  rw [← Option.some.inj hr]
  exact hloop s.quantiles_ 0 s.quantile_values_ hcollected

namespace Registry

/-- What the registry does not check: no help text breaks its line, no two families with metrics
come to the same sample name, and the bounds of a histogram and the quantiles of a summary differ
in the text. -/
structure Distinguishable (r : Registry) : Prop where
  help : ∀ f ∈ r.nonEmpty, newline ∉ f.2.help_
  names : r.nonEmpty.Pairwise fun f g => ∀ name ∈ sampleNames f.2.name_ f.1.metricType,
    name ∉ sampleNames g.2.name_ g.1.metricType
  bounds : ∀ family ∈ r.histograms_, ∀ entry ∈ family.2.metrics_.entries,
    (entry.2.2.bucket_boundaries_.map valueText ++ [ascii "+Inf"]).Nodup
  quantiles : ∀ family ∈ r.summaries_, ∀ entry ∈ family.2.metrics_.entries,
    (entry.2.2.quantiles_.map fun q => valueText q.quantile).Nodup

theorem mem_nonEmpty {r : Registry} {f : Σ k, Family k} (h : f ∈ r.nonEmpty) :
    ∃ p, (p, f.2) ∈ r.getFamilies f.1 := by
  obtain ⟨k, -, hmem⟩ := List.mem_flatMap.mp h
  obtain ⟨entry, hentry, rfl⟩ := List.mem_map.mp hmem
  exact ⟨entry.1, (List.mem_filter.mp hentry).1⟩

/-- The families of a scrape are told apart inside as the objects they were collected from. -/
theorem Distinguishable.distinct {insert_behavior : InsertBehavior} {r : Registry}
    (h : Reachable insert_behavior r) (hr : r.Distinguishable) {f : Σ k, Family k}
    (hf : f ∈ r.nonEmpty) {iteration : f.2.metrics_.Iteration} {clock : Ptr → Nat → Int}
    {family : MetricFamily} (hcollects : f.2.Collects iteration clock family) : Distinct family where
  metrics := by
    obtain ⟨p, hp⟩ := mem_nonEmpty hf
    exact hcollects.pairwise_metrics (h.inv.families f.1 _ hp)
  bounds htype metric hmetric := by
    obtain ⟨p, hp⟩ := mem_nonEmpty hf
    obtain ⟨entry, hentry, ⟨collected, object, hcollect, rfl⟩, -⟩ := hcollects.exposes hmetric
    obtain ⟨k, f⟩ := f
    have hkind := hcollects.type.symm.trans htype
    cases k <;> try cases hkind
    -- The histogram exposed is the one stored, as it has been collected.
    obtain rfl : entry.2.2.collect = collected := (Prod.mk.inj (Option.some.inj hcollect)).1
    have hs := h.histograms_shaped _ hp entry hentry
    obtain ⟨front, last, heq, hfront, hlast, -⟩ := Histogram.collect_buckets hs
    have hnodup := hr.bounds _ hp entry hentry
    rw [← hfront, List.map_map] at hnodup
    show ((exposedBuckets entry.2.2.collect.histogram).map fun b => valueText b.upper_bound).Nodup
    rw [Histogram.exposedBuckets_collect hs, heq, List.map_append, List.map_singleton, hlast]
    exact hnodup
  quantiles htype metric hmetric := by
    obtain ⟨p, hp⟩ := mem_nonEmpty hf
    obtain ⟨entry, hentry, ⟨collected, object, hcollect, rfl⟩, -⟩ := hcollects.exposes hmetric
    obtain ⟨k, f⟩ := f
    have hkind := hcollects.type.symm.trans htype
    cases k <;> try cases hkind
    have hquantiles := Summary.collect_quantiles hcollect
    have hnodup := hr.quantiles _ hp entry hentry
    have htexts : (collected.summary.quantile.map fun q => valueText q.quantile) =
        entry.2.2.quantiles_.map fun q => valueText q.quantile := by
      rw [show (fun q : ClientMetric.Quantile => valueText q.quantile) =
        valueText ∘ ClientMetric.Quantile.quantile from rfl, ← List.map_map, hquantiles, List.map_map]
      rfl
    show (collected.summary.quantile.map fun q => valueText q.quantile).Nodup
    rw [htexts]
    exact hnodup

/-- A scrape of a registry has no two samples of one time series, if its families can be told
apart by what the registry does not check. -/
theorem collect_series_distinct {insert_behavior : InsertBehavior} {r : Registry}
    (h : Reachable insert_behavior r) {walk : Walk} {clock : Ptr → Nat → Int}
    {result : List MetricFamily × Registry} (hcollect : r.collect walk clock = some result)
    (hr : r.Distinguishable) : NoDuplicateSeries (serialize result.1) := by
  have hcollects := h.inv.collects_of_collect hcollect
  have hfrom : ∀ family ∈ result.1, ∃ f ∈ r.nonEmpty, f.2.Collects (walk f.2) clock family :=
    fun family hfamily => RelatedLists.exists_left hcollects hfamily
  apply noDuplicateSeries_serialize
  · intro family hfamily
    obtain ⟨f, hf, hfamily⟩ := hfrom family hfamily
    obtain ⟨p, hp⟩ := mem_nonEmpty hf
    exact hfamily.wellNamed (h.inv.families f.1 _ hp)
  · intro family hfamily
    obtain ⟨f, hf, hfamily⟩ := hfrom family hfamily
    rw [hfamily.help]
    exact hr.help f hf
  · intro family hfamily
    obtain ⟨f, hf, hfamily⟩ := hfrom family hfamily
    exact hr.distinct h hf hfamily
  · refine RelatedLists.pairwise hcollects ?_ hr.names
    intro f _ g _ family family' hfamily hfamily' hdisjoint
    rwa [hfamily.name, hfamily.type, hfamily'.name, hfamily'.type]

/-! ## Two families that can be told apart, and two that cannot -/

/-- A summary without quantiles. -/
def plainSummary : Summary :=
  { quantiles_ := [], quantile_values_ := .new (CKMSQuantiles.new []) 60000000000 5 0 }

/-- A counter under a name and the summary `foo`, each without labels. -/
def counterAndSummary (name : Bytes) : Registry where
  insert_behavior_ := .merge
  counters_ := [(1, {
    metrics_ := ⟨[(.empty, 2, {})], List.nodup_singleton _⟩
    name_ := name, help_ := [], constant_labels_ := .empty })]
  summaries_ := [(3, {
    metrics_ := ⟨[(.empty, 4, plainSummary)], List.nodup_singleton _⟩
    name_ := ascii "foo", help_ := [], constant_labels_ := .empty })]

theorem reachable_counterAndSummary {name : Bytes} (hname : checkMetricName name = true)
    (hne : ascii "foo" ≠ name) : Reachable .merge (counterAndSummary name) := by
  let counters : Family .counter :=
    { metrics_ := .empty, name_ := name, help_ := [], constant_labels_ := .empty }
  let summaries : Family .summary :=
    { metrics_ := .empty, name_ := ascii "foo", help_ := [], constant_labels_ := .empty }
  let r₁ : Registry := { insert_behavior_ := .merge, counters_ := [(1, counters)] }
  let r₂ := r₁.setFamilies .counter ([] ++ (1, (counters.add .empty (2, {})).2) :: [])
  let r₃ := r₂.setFamilies .summary [(3, summaries)]
  have h₁ : Reachable .merge r₁ := by
    have hnew : Family.new .counter name [] .empty = .ok counters := by
      rw [Family.new, if_neg (by simp [hname])]
      rfl
    have hadd : ((new .merge).add .counter name [] .empty 1).2 = r₁ := by
      simp [add, nameExistsInOtherType, familyNameExists, new, getFamilies, setFamilies, hnew, r₁]
    rw [← hadd]
    exact .step .new (.add .counter name [] .empty 1 fun k => by cases k <;> simp [new, getFamilies])
  have h₂ : Reachable .merge r₂ := by
    have hregistered : r₁.getFamilies .counter = [] ++ (1, counters) :: [] := rfl
    have hadd : Family.Step counters (counters.add .empty (2, {})).2 :=
      .add .empty 2 _ .counter (by decide) fun _ hentry => absurd hentry List.not_mem_nil
    exact .step h₁ (.family hregistered hadd)
  have h₃ : Reachable .merge r₃ := by
    have hname₂ : ∀ object, (counters.add .empty (2, object)).2.name_ = name := fun _ => rfl
    have hnew : Family.new .summary (ascii "foo") [] .empty = .ok summaries := rfl
    have hadd : (r₂.add .summary (ascii "foo") [] .empty 3).2 = r₃ := by
      simp [add, nameExistsInOtherType, familyNameExists, getFamilies, setFamilies, hnew, hne, hname₂,
        r₂, r₁, r₃]
    rw [← hadd]
    exact .step h₂ (.add .summary (ascii "foo") [] .empty 3 fun k => by
      cases k <;> simp [getFamilies, setFamilies, r₂, r₁])
  have hregistered : r₃.getFamilies .summary = [] ++ (3, summaries) :: [] := rfl
  have hsummary : Summary.new [] 60000 5 0 = .ok plainSummary := rfl
  have hadd : Family.Step summaries (summaries.add .empty (4, plainSummary)).2 :=
    .add .empty 4 _ (.summary hsummary) (by decide) fun _ hentry => absurd hentry List.not_mem_nil
  exact .step h₃ (.family hregistered hadd)

/-- Each map is walked in the order of its list. -/
def inOrder : Walk := fun f => ⟨f.metrics_.entries, .refl _⟩

theorem collect_series_distinct_of_two : ∃ result,
    (counterAndSummary (ascii "up")).collect inOrder (fun _ _ => 0) = some result ∧
      NoDuplicateSeries (serialize result.1) := by
  have hreachable : Reachable .merge (counterAndSummary (ascii "up")) :=
    reachable_counterAndSummary (by decide) (by decide)
  have hreturns : ((counterAndSummary (ascii "up")).collect inOrder fun _ _ => 0).isSome := by
    decide +kernel
  obtain ⟨result, hresult⟩ := Option.isSome_iff_exists.mp hreturns
  refine ⟨result, hresult, collect_series_distinct hreachable hresult ⟨?_, ?_, ?_, ?_⟩⟩
  · decide +kernel
  · decide +kernel
  · decide +kernel
  · decide +kernel

/-- The counter `foo_count` and the count of the summary `foo` are the same series. -/
theorem collect_series_not_always_distinct :
    ¬ ∀ insert_behavior r, Reachable insert_behavior r → ∀ (walk : Walk) clock result,
      r.collect walk clock = some result → NoDuplicateSeries (serialize result.1) := by
  intro hall
  have hreachable : Reachable .merge (counterAndSummary (ascii "foo_count")) :=
    reachable_counterAndSummary (by decide) (by decide)
  have hsamples : ((counterAndSummary (ascii "foo_count")).collect inOrder fun _ _ => 0).map
      (fun result => readSamples (serialize result.1)) =
        some [⟨ascii "foo_count", [], ascii "0", 0⟩, ⟨ascii "foo_count", [], ascii "0", 0⟩,
          ⟨ascii "foo_sum", [], ascii "0", 0⟩] := by decide +kernel
  obtain ⟨result, hresult, hread⟩ := Option.map_eq_some_iff.mp hsamples
  have hdistinct := (hall _ _ hreachable inOrder _ result hresult).distinct
  rw [hread] at hdistinct
  have hfirst := (List.pairwise_cons.mp hdistinct).1 _ List.mem_cons_self
  exact hfirst ⟨rfl, fun _ => Iff.rfl⟩

end Registry

end PrometheusCpp
