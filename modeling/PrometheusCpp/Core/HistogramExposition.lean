/-
# PrometheusCpp.Core.HistogramExposition -- the bucket lines of a histogram

The constructor compares neighbours with `>=`, which is false for NaN, and it knows nothing of the
infinite bucket that `Collect` adds; the serializer writes the bounds with fewer digits than a
double has. So the bucket lines of an accepted histogram are in order, and end with the only
infinite one, exactly when no boundary is NaN or infinity and neighbours differ in the digits that
are written (`bucketLines_wellFormed_iff`).
-/
import PrometheusCpp.Core.Histogram
import PrometheusCpp.Core.SampleReader

namespace PrometheusCpp

open ByteString TextSerializer

namespace Histogram

/-! ## What a reader finds -/

def linesNamed (name text : Bytes) : List SampleLine :=
  (readSamples text).filter fun line => line.name = name

/-- The text of the upper bound of a bucket line. -/
def boundText (line : SampleLine) : Bytes := (line.labels.lookup (ascii "le")).getD []

/-- The upper bounds of the bucket lines. -/
def readBounds (name text : Bytes) : List Double :=
  (linesNamed (name ++ ascii "_bucket") text).map fun line => readValue (boundText line)

/-- In the text of a histogram the bounds grow from line to line and are numbers, and only the last
is infinite; its count is that of the one count line. -/
structure WellFormedBuckets (name text : Bytes) : Prop where
  increasing : (readBounds name text).IsChain fun a b => a.lt b = true
  not_nan : .nan ∉ readBounds name text
  infinite : ∃ before last count,
    linesNamed (name ++ ascii "_bucket") text = before ++ [last] ∧
    boundText last = ascii "+Inf" ∧ (∀ line ∈ before, boundText line ≠ ascii "+Inf") ∧
    linesNamed (name ++ ascii "_count") text = [count] ∧ last.value = count.value

/-! ## The collected buckets -/

/-- The buckets of a collected histogram have its boundaries for bounds, and the last is infinite
and counts all samples. -/
theorem collect_buckets {buckets : List Double} {h : Histogram} (hs : Shaped buckets h) :
    ∃ front last, h.collect.histogram.bucket = front ++ [last] ∧
      front.map ClientMetric.Bucket.upper_bound = buckets ∧ last.upper_bound = .posInf ∧
      last.cumulative_count = h.collect.histogram.sample_count := by
  have hlength : h.bucket_counts_.length = h.bucket_boundaries_.length + 1 := by
    rw [hs.boundaries, hs.counts]
  have hbounds := collectLoop_bounds h.bucket_counts_ 0 h.bucket_boundaries_ hlength
  have hne : h.bucket_counts_ ≠ [] := fun hnil => by simp [hnil] at hlength
  have hcount := collectLoop_count h.bucket_counts_ 0 h.bucket_boundaries_ hne
  rw [hs.boundaries] at hbounds hcount
  obtain ⟨front, rest, heq, hfront, hrest⟩ := List.map_eq_append_iff.mp hbounds
  obtain ⟨last, rfl, hlast⟩ := List.map_eq_singleton_iff.mp hrest
  rw [heq, List.getLast?_concat, Option.map_some, Option.some.injEq] at hcount
  refine ⟨front, last, ?_, hfront, hlast, ?_⟩
  · show (collectLoop 0 h.bucket_boundaries_ h.bucket_counts_).1 = _
    rw [hs.boundaries, heq]
  · show _ = (collectLoop 0 h.bucket_boundaries_ h.bucket_counts_).2
    rw [hs.boundaries, hcount]

theorem lastBound_append (front : List ClientMetric.Bucket) (last : ClientMetric.Bucket) :
    lastBound (front ++ [last]) = last.upper_bound := by
  rw [lastBound, List.foldl_append]
  rfl

/-- The serializer has no bucket to add. -/
theorem exposedBuckets_collect {buckets : List Double} {h : Histogram} (hs : Shaped buckets h) :
    exposedBuckets h.collect.histogram = h.collect.histogram.bucket := by
  obtain ⟨front, last, heq, -, hlast, -⟩ := collect_buckets hs
  have hbound : lastBound h.collect.histogram.bucket = .posInf := by
    rw [heq, lastBound_append, hlast]
  rw [exposedBuckets, if_neg (not_not.mpr hbound), List.append_nil]

/-! ## Order -/

theorem isStrictSorted_iff_isChain (buckets : List Double) :
    isStrictSorted buckets = true ↔ buckets.IsChain fun a b => b.le a = false := by
  induction buckets with
  | nil => simp [isStrictSorted]
  | cons first rest ih =>
      cases rest with
      | nil => simp [isStrictSorted]
      | cons second rest => simp [isStrictSorted, ih, List.isChain_cons_cons]

/-- In the digits that are written the order can only be lost to equality. -/
theorem lt_printed_iff {a b : Double} (ha : a ≠ .nan) (hb : b ≠ .nan) (h : b.le a = false) :
    (printed a).lt (printed b) = true ↔ printed a ≠ printed b := by
  have hself : ∀ c : Double, c.lt c = false := by
    intro c
    cases c <;> simp [Double.lt]
  refine ⟨fun hlt heq => ?_, fun hne => ?_⟩
  · rw [heq, hself] at hlt
    exact Bool.noConfusion hlt
  · -- The infinities are written as words, so only two finite numbers can come to be equal.
    rcases a with _ | _ | x | _
    · exact absurd rfl ha
    · rcases b with _ | _ | y | _
      · exact absurd rfl hb
      · exact absurd rfl hne
      · rfl
      · rfl
    · rcases b with _ | _ | y | _
      · exact absurd rfl hb
      · exact absurd h (by simp)
      · have hxy : x < y := by simpa using h
        have hle := Decimal.rounded_mono (p := precision) (by decide) hxy.le
        have hne' : Decimal.rounded precision x ≠ Decimal.rounded precision y := fun heq =>
          hne (congrArg Double.ofRat heq)
        show (Double.ofRat _).lt (Double.ofRat _) = true
        rw [Double.lt_ofRat, decide_eq_true_eq]
        exact lt_of_le_of_ne hle hne'
      · rfl
    · rcases b with _ | b
      · exact absurd rfl hb
      · exact absurd h (by simp)

theorem printed_eq_nan_iff {a : Double} : printed a = .nan ↔ a = .nan := by
  rcases a with _ | _ | x | _ <;> simp [printed, Double.ofRat]

theorem valueText_eq_posInf_iff {a : Double} : valueText a = ascii "+Inf" ↔ a = .posInf := by
  constructor
  · intro h
    have hread : printed a = .posInf := by
      rw [← readValue_valueText, h]
      rfl
    rcases a with _ | _ | x | _
    · exact absurd hread (by decide)
    · exact absurd hread (by decide)
    · exact absurd hread (by simp [printed, Double.ofRat, Double.posInf])
    · rfl
  · rintro rfl
    rfl

/-! ## The exposed buckets -/

section Exposed

variable {family : MetricFamily} {metric : ClientMetric}

theorem boundText_bucketSample
    (hmetric : ∀ label ∈ metric.label, checkLabelName label.name .histogram = true)
    (b : ClientMetric.Bucket) :
    boundText (bucketSample family metric b) = valueText b.upper_bound := by
  have hown : (labelPairs metric).lookup (ascii "le") = none := by
    apply List.lookup_eq_none_iff.mpr
    intro label hlabel
    obtain ⟨own, hmem, rfl⟩ := List.mem_map.mp hlabel
    have hvalid := (checkLabelName_iff _ _).mp (hmetric own hmem)
    exact bne_iff_ne.mpr fun heq => hvalid.2.2 (congrArg some heq)
  show ((labelPairs metric ++ [(ascii "le", valueText b.upper_bound)]).lookup (ascii "le")).getD [] = _
  rw [List.lookup_append, hown, List.lookup_cons_self]
  rfl

theorem labels_valid (hnames : WellNamed family) (htype : family.type = .histogram)
    (hmetric : metric ∈ family.metric) :
    ∀ label ∈ metric.label, checkLabelName label.name .histogram = true := by
  intro label hlabel
  rw [← htype]
  exact hnames.labels metric hmetric label hlabel

/-- The lines of the exposed buckets and the count line are found in the text. -/
theorem linesNamed_serializeHistogram (hnames : WellNamed family) (htype : family.type = .histogram)
    (hmetric : metric ∈ family.metric) :
    linesNamed (family.name ++ ascii "_bucket") (render (serializeHistogram family metric)) =
        (exposedBuckets metric.histogram).map (bucketSample family metric) ∧
      linesNamed (family.name ++ ascii "_count") (render (serializeHistogram family metric)) =
        [sample family metric (ascii "_count") []
          (Decimal.intText metric.histogram.sample_count)] := by
  have hwell : ∀ line ∈ histogramSamples family metric, line.WellFormed := by
    intro line hline
    apply wellFormed_of_mem_samples hnames hmetric
    rwa [htype]
  have hread : readSamples (render (serializeHistogram family metric)) =
      histogramSamples family metric := by
    rw [render_serializeHistogram, readSamples_terminated hwell]
  have hbucket : ∀ suffix : Bytes, ((exposedBuckets metric.histogram).map
      (bucketSample family metric)).filter (fun line => line.name = family.name ++ suffix) =
        if ascii "_bucket" = suffix then
          (exposedBuckets metric.histogram).map (bucketSample family metric) else [] := by
    intro suffix
    split_ifs with hsuffix
    · apply List.filter_eq_self.mpr
      intro line hline
      obtain ⟨b, -, rfl⟩ := List.mem_map.mp hline
      exact decide_eq_true (congrArg _ hsuffix)
    · apply List.filter_eq_nil_iff.mpr
      intro line hline
      obtain ⟨b, -, rfl⟩ := List.mem_map.mp hline
      rw [decide_eq_true_eq]
      exact fun heq => hsuffix (List.append_cancel_left heq)
  -- A name is that of a bucket line, of the count or of the sum by its suffix.
  have hcount : ascii "_count" ≠ ascii "_bucket" := by decide
  have hsum : ascii "_sum" ≠ ascii "_bucket" := by decide
  have hboth : ascii "_sum" ≠ ascii "_count" := by decide
  constructor
  · rw [linesNamed, hread, histogramSamples, List.filter_append, hbucket, if_pos rfl]
    simp [totalSamples, sample, hcount, hsum]
  · rw [linesNamed, hread, histogramSamples, List.filter_append, hbucket, if_neg hcount.symm]
    simp [totalSamples, sample, hboth]

end Exposed

/-- Neighbours that are in order for the constructor are so in the text if they are told apart
there. -/
theorem isChain_printed_iff {buckets : List Double} (hsorted : isStrictSorted buckets = true)
    (hnan : .nan ∉ buckets) :
    (buckets.map printed).IsChain (fun a b => a.lt b = true) ↔
      buckets.IsChain fun a b => printed a ≠ printed b := by
  have hchain := (isStrictSorted_iff_isChain buckets).mp hsorted
  have hne : ∀ a ∈ buckets, a ≠ .nan := fun a ha heq => hnan (heq ▸ ha)
  rw [List.isChain_map]
  induction buckets with
  | nil => simp
  | cons first rest ih =>
      cases rest with
      | nil => simp
      | cons second rest =>
          rw [List.isChain_cons_cons] at hchain ⊢
          rw [List.isChain_cons_cons]
          have hrest := fun a ha => hne a (List.mem_cons_of_mem first ha)
          have hstep := lt_printed_iff (hne first List.mem_cons_self)
            (hrest second List.mem_cons_self) hchain.1
          have hih := ih ((isStrictSorted_iff_isChain _).mpr hchain.2)
            (fun hmem => hnan (List.mem_cons_of_mem _ hmem)) hchain.2 hrest
          exact and_congr hstep hih

theorem printed_lt_posInf {a : Double} (hnan : a ≠ .nan) (hinf : a ≠ .posInf) :
    (printed a).lt .posInf = true := by
  rcases a with _ | _ | x | _
  · exact absurd rfl hnan
  · rfl
  · rfl
  · exact absurd rfl hinf

theorem nan_not_mem_printed_iff {buckets : List Double} :
    .nan ∉ buckets.map printed ++ [.posInf] ↔ .nan ∉ buckets := by
  rw [List.mem_append, List.mem_singleton, not_or, List.mem_map]
  constructor
  · rintro ⟨hnot, -⟩ hmem
    exact hnot ⟨_, hmem, rfl⟩
  · intro hnot
    refine ⟨?_, by decide⟩
    rintro ⟨a, ha, heq⟩
    exact hnot (printed_eq_nan_iff.mp heq ▸ ha)

/-- The bounds read back are the boundaries in the digits that are written, and infinity. -/
theorem readBounds_render {buckets : List Double} {h : Histogram} (hs : Shaped buckets h)
    {family : MetricFamily} {metric : ClientMetric} (hnames : WellNamed family)
    (htype : family.type = .histogram) (hmetric : metric ∈ family.metric)
    (hhist : metric.histogram = h.collect.histogram) :
    readBounds family.name (render (serializeHistogram family metric)) =
      buckets.map printed ++ [.posInf] := by
  obtain ⟨front, last, hbuckets, hbounds, hinfinite, -⟩ := collect_buckets hs
  have hread : ∀ b : ClientMetric.Bucket,
      readValue (boundText (bucketSample family metric b)) = printed b.upper_bound := fun b => by
    rw [boundText_bucketSample (labels_valid hnames htype hmetric), readValue_valueText]
  rw [readBounds, (linesNamed_serializeHistogram hnames htype hmetric).1, hhist,
    exposedBuckets_collect hs, hbuckets, List.map_map, List.map_append, List.map_singleton,
    ← hbounds, List.map_map]
  have hlast : readValue (boundText (bucketSample family metric last)) = .posInf := by
    rw [hread, hinfinite]
    rfl
  exact congrArg₂ (· ++ [·]) (List.map_congr_left fun b _ => hread b) hlast

/-- An accepted histogram exposes well-formed bucket lines if and only if none of its boundaries is
NaN or infinity and no neighbours have the same written digits. -/
theorem bucketLines_wellFormed_iff {buckets : List Double} {h : Histogram}
    (hnew : new buckets = .ok h) (calls : List Call) {family : MetricFamily} {metric : ClientMetric}
    {labels : List ClientMetric.Label} (hnames : WellNamed family)
    (htype : family.type = .histogram) (hmetric : metric ∈ family.metric)
    (hcollected : metric = { (run h calls).collect with label := labels }) :
    WellFormedBuckets family.name (render (serializeHistogram family metric)) ↔
      .nan ∉ buckets ∧ .posInf ∉ buckets ∧ buckets.IsChain fun a b => printed a ≠ printed b := by
  have hs : Shaped buckets (run h calls) := run_shaped calls (new_shaped hnew)
  have hsorted := (new_eq_ok hnew).1
  have hhist : metric.histogram = (run h calls).collect.histogram := by rw [hcollected]
  obtain ⟨front, last, hbuckets, hbounds, hinfinite, hcount⟩ := collect_buckets hs
  obtain ⟨hlines, hcounts⟩ := linesNamed_serializeHistogram hnames htype hmetric
  rw [hhist, exposedBuckets_collect hs, hbuckets, List.map_append, List.map_singleton] at hlines
  have htext : ∀ b, boundText (bucketSample family metric b) = valueText b.upper_bound :=
    boundText_bucketSample (labels_valid hnames htype hmetric)
  have hread := readBounds_render hs hnames htype hmetric hhist
  constructor
  · rintro ⟨hincreasing, hnumbers, before, final, count, hsplit, -, hbefore, -⟩
    rw [hread] at hincreasing hnumbers
    have hnan := nan_not_mem_printed_iff.mp hnumbers
    refine ⟨hnan, ?_, (isChain_printed_iff hsorted hnan).mp hincreasing.left_of_append⟩
    -- A boundary at infinity would be a second bucket with the bound `+Inf`.
    rw [hlines] at hsplit
    obtain rfl := (List.append_singleton_inj.mp hsplit).1
    rw [← hbounds]
    intro hmem
    obtain ⟨b, hb, heq⟩ := List.mem_map.mp hmem
    apply hbefore _ (List.mem_map_of_mem hb)
    rw [htext, heq]
    rfl
  · rintro ⟨hnumbers, hfinite, hdistinct⟩
    refine ⟨?_, ?_, _, _, _, hlines, ?_, ?_, hcounts, ?_⟩
    · rw [hread]
      apply ((isChain_printed_iff hsorted hnumbers).mpr hdistinct).append (.singleton _)
      intro a ha b hb
      obtain rfl : Double.posInf = b := by simpa using hb
      obtain ⟨boundary, hmem, rfl⟩ := List.mem_map.mp (List.mem_of_getLast? ha)
      exact printed_lt_posInf (fun heq => hnumbers (heq ▸ hmem)) (fun heq => hfinite (heq ▸ hmem))
    · rw [hread]
      exact nan_not_mem_printed_iff.mpr hnumbers
    · rw [htext, hinfinite]
      rfl
    · intro line hline
      obtain ⟨b, hb, rfl⟩ := List.mem_map.mp hline
      rw [htext]
      intro heq
      apply hfinite
      rw [← hbounds, ← valueText_eq_posInf_iff.mp heq]
      exact List.mem_map_of_mem hb
    · show Decimal.intText last.cumulative_count = Decimal.intText metric.histogram.sample_count
      rw [hcount, hhist]

/-! ## A histogram that is well formed, and one that is not -/

/-- The family of a histogram `up` without observations. -/
def exposed (h : Histogram) : MetricFamily := ⟨ascii "up", [], .histogram, [h.collect]⟩

theorem wellNamed_exposed (h : Histogram) : WellNamed (exposed h) where
  name := by
    show checkMetricName (ascii "up") = true
    decide
  labels metric hmetric label hlabel := by
    rw [List.mem_singleton.mp hmetric] at hlabel
    exact absurd hlabel List.not_mem_nil

theorem bucketLines_wellFormed_iff_of_two : ∃ h, new [1, 2] = .ok h ∧
    WellFormedBuckets (ascii "up") (render (serializeHistogram (exposed h) h.collect)) := by
  let h : Histogram := { bucket_boundaries_ := [1, 2], bucket_counts_ := [{}, {}, {}] }
  have hnew : new [1, 2] = .ok h := by decide +kernel
  have hcollected : h.collect = { (run h []).collect with label := [] } := rfl
  refine ⟨h, hnew, ?_⟩
  apply (bucketLines_wellFormed_iff hnew [] (wellNamed_exposed h) rfl List.mem_cons_self
    hcollected).mpr
  decide +kernel

/-- With infinity for a boundary there are two infinite buckets. -/
theorem bucketLines_not_always_wellFormed :
    ¬ ∀ buckets h, new buckets = .ok h → ∀ calls, ∀ family : MetricFamily, WellNamed family →
      family.type = .histogram → ∀ metric ∈ family.metric,
      (∃ labels, metric = { (run h calls).collect with label := labels }) →
      WellFormedBuckets family.name (render (serializeHistogram family metric)) := by
  intro hall
  let h : Histogram := { bucket_boundaries_ := [1, .posInf], bucket_counts_ := [{}, {}, {}] }
  have hnew : new [1, .posInf] = .ok h := by decide +kernel
  have hwell := hall _ h hnew [] (exposed h) (wellNamed_exposed h) rfl h.collect List.mem_cons_self
    ⟨[], rfl⟩
  obtain ⟨before, last, -, hlines, -, hbefore, -⟩ := hwell.infinite
  have htexts : (linesNamed ((exposed h).name ++ ascii "_bucket")
      (render (serializeHistogram (exposed h) h.collect))).map boundText =
        [ascii "1", ascii "+Inf"] ++ [ascii "+Inf"] := by decide +kernel
  rw [hlines, List.map_append, List.map_singleton] at htexts
  have hinfinite : ascii "+Inf" ∈ before.map boundText := by
    rw [(List.append_singleton_inj.mp htexts).1]
    decide
  obtain ⟨line, hline, heq⟩ := List.mem_map.mp hinfinite
  exact hbefore line hline heq

end Histogram

end PrometheusCpp
