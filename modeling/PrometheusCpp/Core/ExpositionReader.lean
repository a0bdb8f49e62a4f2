/-
# PrometheusCpp.Core.ExpositionReader -- reading a whole exposition back

The inverse of `TextSerializer::Serialize`: lines, then families, then metrics with their labels and
numbers. The text does not carry everything: numbers have sixteen digits, a histogram has a bucket
for infinity, and an info family without metrics is a gauge family (`MetricFamily.exposed`). That
much a reader gets back from the text (`readExposition_serialize`), and it has the same text again
(`serialize_exposed`), so two expositions have one text exactly when they expose the same
(`serialize_eq_iff`).
-/
import PrometheusCpp.Core.HistogramExposition
import PrometheusCpp.Core.LineStructure
import PrometheusCpp.Core.TypeHeaders

namespace PrometheusCpp

open ByteString

/-! ## What the text carries -/

namespace TextSerializer

/-- The values that the writer of a type writes, as it writes them. -/
def exposedMetric (type : MetricType) (metric : ClientMetric) : ClientMetric :=
  let bare : ClientMetric := { label := metric.label, timestamp_ms := metric.timestamp_ms }
  match type with
  | .counter => { bare with counter := printed metric.counter }
  | .gauge => { bare with gauge := printed metric.gauge }
  | .info => { bare with info := printed metric.info }
  | .untyped => { bare with untyped := printed metric.untyped }
  | .summary =>
    { bare with
      summary :=
        { sample_count := metric.summary.sample_count
          sample_sum := printed metric.summary.sample_sum
          quantile := metric.summary.quantile.map fun q => ⟨printed q.quantile, printed q.value⟩ } }
  | .histogram =>
    { bare with
      histogram :=
        { sample_count := metric.histogram.sample_count
          sample_sum := printed metric.histogram.sample_sum
          bucket := (exposedBuckets metric.histogram).map fun b =>
            ⟨b.cumulative_count, printed b.upper_bound⟩ } }

/-- Without metrics there is nothing to tell an info family from a gauge family. -/
def exposedType (family : MetricFamily) : MetricType :=
  if family.type = .info ∧ family.metric = [] then .gauge else family.type

def exposed (family : MetricFamily) : MetricFamily :=
  { family with
    type := exposedType family
    metric := family.metric.map (exposedMetric family.type) }

/-! ## Lines -/

def ExpositionLine.text : ExpositionLine → Bytes
  | .help name text => ascii "# HELP " ++ name ++ [space] ++ text
  | .type name word => ascii "# TYPE " ++ name ++ [space] ++ word
  | .sample line => line.text

def familyExposition (family : MetricFamily) : List ExpositionLine :=
  (if family.help ≠ [] then [.help family.name family.help] else []) ++
    .type family.name (typeName family.type) :: (familySamples family).map .sample

def expositionLines (metrics : List MetricFamily) : List ExpositionLine :=
  metrics.flatMap familyExposition

theorem familyExposition_text (family : MetricFamily) :
    (familyExposition family).map ExpositionLine.text = familyLines family := by
  have hsamples : (familySamples family).map (ExpositionLine.text ∘ ExpositionLine.sample) =
      sampleLines family := (sampleLines_eq family).symm
  rw [familyExposition, List.map_append, List.map_cons, List.map_map, hsamples, familyLines]
  split_ifs <;> rfl

theorem serialize_eq_expositionLines (metrics : List MetricFamily) :
    serialize metrics = terminated newline ((expositionLines metrics).map ExpositionLine.text) := by
  rw [serialize_eq_lines, expositionLines, List.map_flatMap]
  simp only [familyExposition_text]

/-! ## Families -/

/-- The lines of a family. -/
structure FamilyLines where
  name : Bytes
  help : Bytes := []
  word : Bytes
  samples : List SampleLine
  deriving DecidableEq

/-- The samples in front of the first header, and the families behind it. -/
def readFamilies : List ExpositionLine → Option (List SampleLine × List FamilyLines)
  | [] => some ([], [])
  | .sample line :: rest => do
    let (samples, families) ← readFamilies rest
    some (line :: samples, families)
  | .type name word :: rest => do
    let (samples, families) ← readFamilies rest
    some ([], { name, word, samples } :: families)
  | .help name help :: rest => do
    match ← readFamilies rest with
    | ([], family :: families) =>
      if family.name = name ∧ family.help = [] then some ([], { family with help } :: families)
      else none
    | _ => none

/-! ## Metrics -/

/-- Cuts a list in front of the entries that start a block; what is before the first comes apart. -/
def blocks {α : Type} (starts : α → Bool) : List α → List α × List (List α)
  | [] => ([], [])
  | x :: rest =>
    let (front, more) := blocks starts rest
    if starts x then ([], (x :: front) :: more) else (x :: front, more)

/-- The number in the last label, if it has the reserved name. -/
def readExtra (name : Bytes) (line : SampleLine) : Option Double :=
  match line.labels.getLast? with
  | some (label, value) => if label = name then some (readValue value) else none
  | none => none

def readLabels (labels : List (Bytes × Bytes)) : List ClientMetric.Label :=
  labels.map fun (name, value) => { name, value }

def readQuantile (line : SampleLine) : Option ClientMetric.Quantile := do
  let quantile ← readExtra (ascii "quantile") line
  some { quantile, value := readValue line.value }

def readBucket (line : SampleLine) : Option ClientMetric.Bucket := do
  let upper_bound ← readExtra (ascii "le") line
  some { cumulative_count := (Decimal.readInt line.value).toNat, upper_bound }

/-- The metric of a block of samples. -/
def readMetric : MetricType → List SampleLine → Option ClientMetric
  | .summary, count :: sum :: quantiles => do
    let quantile ← quantiles.mapM readQuantile
    some
      { label := readLabels count.labels
        timestamp_ms := count.timestamp
        summary :=
          { sample_count := (Decimal.readInt count.value).toNat
            sample_sum := readValue sum.value
            quantile } }
  | .histogram, count :: sum :: buckets => do
    let bucket ← buckets.mapM readBucket
    some
      { label := readLabels count.labels
        timestamp_ms := count.timestamp
        histogram :=
          { sample_count := (Decimal.readInt count.value).toNat
            sample_sum := readValue sum.value
            bucket } }
  | .counter, [line] =>
    some
      { label := readLabels line.labels
        timestamp_ms := line.timestamp
        counter := readValue line.value }
  | .gauge, [line] =>
    some
      { label := readLabels line.labels
        timestamp_ms := line.timestamp
        gauge := readValue line.value }
  | .info, [line] =>
    some
      { label := readLabels line.labels
        timestamp_ms := line.timestamp
        info := readValue line.value }
  | .untyped, [line] =>
    some
      { label := readLabels line.labels
        timestamp_ms := line.timestamp
        untyped := readValue line.value }
  | _, _ => none

/-- The type for a word; the samples of an info are named differently from those of a gauge. -/
def readTypeWord (family : FamilyLines) : Option MetricType :=
  if family.word = ascii "counter" then some .counter
  else if family.word = ascii "gauge" then
    some (if family.samples.any fun line => line.name = family.name ++ ascii "_info" then .info
      else .gauge)
  else if family.word = ascii "summary" then some .summary
  else if family.word = ascii "histogram" then some .histogram
  else if family.word = ascii "untyped" then some .untyped
  else none

/-- The samples that are the first of their metrics. -/
def startsMetric (name : Bytes) : MetricType → SampleLine → Bool
  | .summary, line => line.name = name ++ ascii "_count"
  | .histogram, line => line.name = name ++ ascii "_count"
  | _, _ => true

def readFamily (family : FamilyLines) : Option MetricFamily := do
  let type ← readTypeWord family
  let metric ← (blocks (startsMetric family.name type) family.samples).2.mapM (readMetric type)
  some { name := family.name, help := family.help, type, metric }

def readExposition (text : Bytes) : Option (List MetricFamily) := do
  let lines ← (text.splitOn newline).dropLast.mapM readLine
  let (_, families) ← readFamilies lines
  families.mapM readFamily

/-! ## The lines are read back -/

section Lines

variable {family : MetricFamily}

theorem readLine_help (hnames : WellNamed family) (hhelp : PlainHelp family.help) :
    readLine (helpLine family) = some (.help family.name family.help) := by
  rw [readLine_help_of_wellNamed hnames, (unescapeHelp_eq_self_iff family.help).mpr hhelp.2]

theorem readLine_text (hnames : WellNamed family) (hhelp : PlainHelp family.help)
    {line : ExpositionLine} (hline : line ∈ familyExposition family) :
    readLine line.text = some line := by
  rcases List.mem_append.mp hline with hfirst | hrest
  · split_ifs at hfirst
    · rw [List.mem_singleton.mp hfirst]
      exact readLine_help hnames hhelp
    · exact absurd hfirst List.not_mem_nil
  · rcases List.mem_cons.mp hrest with rfl | hsample
    · exact readLine_type hnames
    · obtain ⟨sample, hmem, rfl⟩ := List.mem_map.mp hsample
      obtain ⟨metric, hmetric, hmem⟩ := List.mem_flatMap.mp hmem
      exact readLine_sample (wellFormed_of_mem_samples hnames hmetric hmem)

end Lines

/-! ## The families are told apart -/

def familyText (family : MetricFamily) : FamilyLines where
  name := family.name
  help := family.help
  word := typeName family.type
  samples := familySamples family

theorem readFamilies_samples (lines : List SampleLine) {rest : List ExpositionLine}
    {samples : List SampleLine} {families : List FamilyLines}
    (h : readFamilies rest = some (samples, families)) :
    readFamilies (lines.map .sample ++ rest) = some (lines ++ samples, families) := by
  induction lines with
  | nil => exact h
  | cons line lines ih =>
      rw [List.map_cons, List.cons_append, readFamilies, ih]
      rfl

theorem readFamilies_family (family : MetricFamily) {rest : List ExpositionLine}
    {families : List FamilyLines} (h : readFamilies rest = some ([], families)) :
    readFamilies (familyExposition family ++ rest) = some ([], familyText family :: families) := by
  have htype : readFamilies (.type family.name (typeName family.type) ::
      ((familySamples family).map .sample ++ rest)) =
        some ([], { familyText family with help := [] } :: families) := by
    rw [readFamilies, readFamilies_samples _ h, List.append_nil]
    rfl
  rw [familyExposition, List.append_assoc, List.cons_append]
  split_ifs with hhelp
  · rw [List.singleton_append, readFamilies, htype]
    exact if_pos ⟨rfl, rfl⟩
  · rw [List.nil_append, htype, familyText, not_not.mp hhelp]

theorem readFamilies_expositionLines (metrics : List MetricFamily) :
    readFamilies (expositionLines metrics) = some ([], metrics.map familyText) := by
  induction metrics with
  | nil => rfl
  | cons family metrics ih => exact readFamilies_family family ih

/-! ## The metrics are told apart -/

theorem blocks_front {α : Type} {starts : α → Bool} {front : List α}
    (h : ∀ x ∈ front, starts x = false) (rest : List α) :
    blocks starts (front ++ rest) = (front ++ (blocks starts rest).1, (blocks starts rest).2) := by
  induction front with
  | nil => rfl
  | cons x front ih =>
      have hx : starts x = false := h x List.mem_cons_self
      rw [List.cons_append, blocks, ih fun y hy => h y (List.mem_cons_of_mem _ hy)]
      simp [hx]

theorem blocks_flatten {α : Type} {starts : α → Bool} {pieces : List (List α)}
    (h : ∀ piece ∈ pieces, ∃ x more, piece = x :: more ∧ starts x = true ∧
      ∀ y ∈ more, starts y = false) : blocks starts pieces.flatten = ([], pieces) := by
  induction pieces with
  | nil => rfl
  | cons piece pieces ih =>
      obtain ⟨x, more, rfl, hstarts, hmore⟩ := h piece List.mem_cons_self
      rw [List.flatten_cons, List.cons_append, blocks, blocks_front hmore,
        ih fun other hother => h other (List.mem_cons_of_mem _ hother)]
      simp [hstarts]

/-- Every metric has a first sample, and the others do not look like it. -/
theorem samples_block (family : MetricFamily) (metric : ClientMetric) (type : MetricType) :
    ∃ first more, samples family metric type = first :: more ∧
      startsMetric family.name type first = true ∧
      ∀ line ∈ more, startsMetric family.name type line = false := by
  have hother : ∀ (suffix : Bytes) {line : SampleLine}, suffix ≠ ascii "_count" →
      line.name = family.name ++ suffix → decide (line.name = family.name ++ ascii "_count") = false :=
    fun _ _ hsuffix hname =>
      decide_eq_false fun heq => hsuffix (List.append_cancel_left (hname.symm.trans heq))
  have hsum : ∀ value : Bytes, decide ((sample family metric (ascii "_sum") [] value).name =
      family.name ++ ascii "_count") = false := fun value => hother (ascii "_sum") (by decide) rfl
  cases type with
  | counter => exact ⟨_, [], rfl, rfl, nofun⟩
  | gauge => exact ⟨_, [], rfl, rfl, nofun⟩
  | info => exact ⟨_, [], rfl, rfl, nofun⟩
  | untyped => exact ⟨_, [], rfl, rfl, nofun⟩
  | summary =>
      refine ⟨_, _, rfl, decide_eq_true rfl, ?_⟩
      intro line hline
      rcases List.mem_cons.mp hline with rfl | hquantile
      · exact hsum _
      · obtain ⟨q, -, rfl⟩ := List.mem_map.mp hquantile
        exact hother [] (by decide) rfl
  | histogram =>
      refine ⟨_, _, rfl, decide_eq_true rfl, ?_⟩
      intro line hline
      rcases List.mem_cons.mp hline with rfl | hbucket
      · exact hsum _
      · obtain ⟨b, -, rfl⟩ := List.mem_map.mp hbucket
        exact hother (ascii "_bucket") (by decide) rfl

theorem labels_read (metric : ClientMetric) : readLabels (labelPairs metric) = metric.label := by
  rw [readLabels, labelPairs, List.map_map]
  exact List.map_id'' (fun _ => rfl) _

theorem readExtra_sample (family : MetricFamily) (metric : ClientMetric) (suffix name : Bytes)
    (value : Double) (text : Bytes) :
    readExtra name (sample family metric suffix [(name, valueText value)] text) =
      some (printed value) := by
  have hlast : (sample family metric suffix [(name, valueText value)] text).labels.getLast? =
      some (name, valueText value) := List.getLast?_concat
  rw [readExtra, hlast]
  show (if name = name then some (readValue (valueText value)) else none) = _
  rw [if_pos rfl, readValue_valueText]

theorem mapM_map {α β γ : Type} {f : α → β} {g : β → Option γ} {r : α → γ} (xs : List α)
    (h : ∀ x ∈ xs, g (f x) = some (r x)) : (xs.map f).mapM g = some (xs.map r) := by
  rw [RelatedLists.mapM_eq_some_iff, List.forall₂_map_left_iff, List.forall₂_map_right_iff,
    List.forall₂_same]
  exact h

theorem readCount (n : Nat) : (Decimal.readInt (Decimal.intText n)).toNat = n := by
  rw [Decimal.readInt_intText, Int.toNat_natCast]

theorem readQuantile_sample (family : MetricFamily) (metric : ClientMetric)
    (q : ClientMetric.Quantile) :
    readQuantile (sample family metric [] [(ascii "quantile", valueText q.quantile)]
      (valueText q.value)) = some ⟨printed q.quantile, printed q.value⟩ := by
  rw [readQuantile, readExtra_sample, ← readValue_valueText q.value]
  rfl

theorem readBucket_bucketSample (family : MetricFamily) (metric : ClientMetric)
    (b : ClientMetric.Bucket) :
    readBucket (bucketSample family metric b) =
      some ⟨b.cumulative_count, printed b.upper_bound⟩ := by
  rw [readBucket, bucketSample, readExtra_sample]
  show some (ClientMetric.Bucket.mk (Decimal.readInt (Decimal.intText _)).toNat _) = _
  rw [readCount]

theorem readMetric_samples (family : MetricFamily) (metric : ClientMetric) (type : MetricType) :
    readMetric type (samples family metric type) = some (exposedMetric type metric) := by
  have hlabels : readLabels (labelPairs metric ++ []) = metric.label := by
    rw [List.append_nil, labels_read]
  cases type with
  | counter | gauge | info | untyped =>
      simp only [samples, readMetric, sample, hlabels, readValue_valueText, exposedMetric]
  | summary =>
      have hquantiles := mapM_map metric.summary.quantile fun q _ =>
        readQuantile_sample family metric q
      simp only [samples, summarySamples, totalSamples, List.cons_append, List.nil_append, readMetric,
        hquantiles]
      simp only [sample, hlabels, readCount, readValue_valueText, exposedMetric]
      rfl
  | histogram =>
      have hbuckets := mapM_map (exposedBuckets metric.histogram) fun b _ =>
        readBucket_bucketSample family metric b
      simp only [samples, histogramSamples, totalSamples, List.cons_append, List.nil_append,
        readMetric, hbuckets]
      simp only [sample, hlabels, readCount, readValue_valueText, exposedMetric]
      rfl

theorem name_of_mem_familySamples_gauge {family : MetricFamily} (hgauge : family.type = .gauge)
    {line : SampleLine} (h : line ∈ familySamples family) : line.name = family.name := by
  obtain ⟨metric, -, hmem⟩ := List.mem_flatMap.mp h
  rw [hgauge] at hmem
  rw [List.mem_singleton.mp hmem]
  exact List.append_nil _

/-- The samples of an info are named for it; a gauge has none of that name. -/
theorem any_info_familySamples (family : MetricFamily)
    (htype : typeName family.type = ascii "gauge") :
    (if (familySamples family).any fun line => line.name = family.name ++ ascii "_info" then
      MetricType.info else .gauge) = exposedType family := by
  cases hfamily : family.type with
  | info =>
      rw [exposedType, hfamily]
      cases hmetric : family.metric with
      | nil =>
          rw [familySamples, hmetric]
          rfl
      | cons metric rest =>
          have hmem : sample family metric (ascii "_info") [] (valueText metric.info) ∈
              familySamples family := by
            refine List.mem_flatMap.mpr ⟨metric, hmetric ▸ List.mem_cons_self, ?_⟩
            rw [hfamily]
            exact List.mem_singleton_self _
          rw [if_pos (List.any_eq_true.mpr ⟨_, hmem, decide_eq_true rfl⟩)]
          exact (if_neg fun h => List.cons_ne_nil metric rest h.2).symm
  | gauge =>
      have hnone : ¬ (familySamples family).any fun line => line.name = family.name ++ ascii "_info" := by
        intro hany
        obtain ⟨line, hmem, hname⟩ := List.any_eq_true.mp hany
        have heq : family.name ++ ascii "_info" = family.name ++ [] := by
          rw [List.append_nil]
          exact (of_decide_eq_true hname).symm.trans (name_of_mem_familySamples_gauge hfamily hmem)
        exact absurd (List.append_cancel_left heq) (by decide)
      rw [if_neg hnone, exposedType, hfamily]
      rfl
  | counter | summary | untyped | histogram =>
      rw [hfamily] at htype
      exact absurd htype (by decide)

theorem readTypeWord_familyText (family : MetricFamily) :
    readTypeWord (familyText family) = some (exposedType family) := by
  by_cases hgauge : typeName family.type = ascii "gauge"
  · rw [readTypeWord, ← any_info_familySamples family hgauge]
    show (if typeName family.type = ascii "counter" then _ else
      if typeName family.type = ascii "gauge" then _ else _) = _
    rw [if_neg (hgauge ▸ by decide), if_pos hgauge]
    rfl
  · have hinfo : family.type ≠ .info := by
      intro h
      exact hgauge (h ▸ rfl)
    have hexposed : exposedType family = family.type := if_neg fun h => hinfo h.1
    rw [hexposed]
    unfold readTypeWord familyText
    cases hfamily : family.type with
    | gauge | info => exact absurd (hfamily ▸ rfl) hgauge
    | counter | summary | untyped | histogram => rfl

theorem blocks_familySamples (family : MetricFamily) :
    blocks (startsMetric family.name (exposedType family)) (familySamples family) =
      ([], family.metric.map fun metric => samples family metric family.type) := by
  have hflatten : familySamples family =
      (family.metric.map fun metric => samples family metric family.type).flatten :=
    List.flatMap_def ..
  rw [hflatten]
  by_cases hexposed : exposedType family = family.type
  · rw [hexposed]
    refine blocks_flatten ?_
    intro piece hpiece
    obtain ⟨metric, -, rfl⟩ := List.mem_map.mp hpiece
    exact samples_block family metric family.type
  · have hnone : family.metric = [] := by
      by_contra hmetric
      exact hexposed (if_neg fun h => hmetric h.2)
    rw [hnone]
    rfl

theorem readFamily_familyText (family : MetricFamily) :
    readFamily (familyText family) = some (exposed family) := by
  have hmetrics : (family.metric.map fun metric => samples family metric family.type).mapM
      (readMetric (exposedType family)) = some (family.metric.map (exposedMetric family.type)) := by
    refine mapM_map family.metric fun metric hmetric => ?_
    have hexposed : exposedType family = family.type :=
      if_neg fun h => List.ne_nil_of_mem hmetric h.2
    rw [hexposed]
    exact readMetric_samples family metric family.type
  have hblocks := blocks_familySamples family
  rw [readFamily, readTypeWord_familyText]
  show (do
    let metric ← (blocks (startsMetric family.name (exposedType family))
      (familySamples family)).2.mapM (readMetric (exposedType family))
    some _) = _
  rw [hblocks, hmetrics]
  rfl

/-! ## The whole text -/

/-- The whole text is read back, as far as a text carries what it is made of. -/
theorem readExposition_serialize (metrics : List MetricFamily)
    (hnames : ∀ family ∈ metrics, WellNamed family)
    (hhelp : ∀ family ∈ metrics, PlainHelp family.help) :
    readExposition (serialize metrics) = some (metrics.map exposed) := by
  have hsplit : (serialize metrics).splitOn newline =
      (expositionLines metrics).map ExpositionLine.text ++ [[]] := by
    rw [serialize_eq_expositionLines]
    apply splitOn_terminated
    intro line hline
    rw [expositionLines, List.map_flatMap] at hline
    obtain ⟨family, hfamily, hline⟩ := List.mem_flatMap.mp hline
    rw [familyExposition_text] at hline
    exact newline_not_mem_familyLines (hnames family hfamily) (hhelp family hfamily).1 hline
  have hlines : ((expositionLines metrics).map ExpositionLine.text).mapM readLine =
      some (expositionLines metrics) := by
    rw [mapM_map (expositionLines metrics) (r := id), List.map_id]
    intro line hline
    obtain ⟨family, hfamily, hline⟩ := List.mem_flatMap.mp hline
    exact readLine_text (hnames family hfamily) (hhelp family hfamily) hline
  have hfamilies : (metrics.map familyText).mapM readFamily = some (metrics.map exposed) :=
    mapM_map metrics fun family _ => readFamily_familyText family
  rw [readExposition, hsplit, List.dropLast_concat, hlines]
  show (do
    let (_, families) ← readFamilies (expositionLines metrics)
    families.mapM readFamily) = _
  rw [readFamilies_expositionLines]
  exact hfamilies

/-! ## What is exposed has the text already -/

theorem valueText_printed (value : Double) : valueText (printed value) = valueText value := by
  rcases value with _ | _ | x | _
  · rfl
  · rfl
  · exact (Decimal.generalText_eq_iff (by decide)).mpr (Decimal.rounded_rounded (by decide) x)
  · rfl

/-- The last bucket line is for infinity. -/
theorem exposedBuckets_eq (hist : ClientMetric.Histogram) :
    ∃ front count, exposedBuckets hist = front ++ [⟨count, .posInf⟩] := by
  by_cases hlast : lastBound hist.bucket = .posInf
  · rw [exposedBuckets, if_neg (not_not.mpr hlast), List.append_nil]
    rcases List.eq_nil_or_concat hist.bucket with hnil | ⟨front, last, hconcat⟩
    · rw [hnil] at hlast
      exact absurd hlast (by decide)
    · rw [List.concat_eq_append] at hconcat
      rw [hconcat, Histogram.lastBound_append] at hlast
      exact ⟨front, last.cumulative_count, hlast ▸ hconcat⟩
  · exact ⟨hist.bucket, hist.sample_count, by rw [exposedBuckets, if_pos hlast]⟩

/-- So an exposed histogram has no bucket to add. -/
theorem exposedBuckets_exposedMetric (metric : ClientMetric) :
    exposedBuckets (exposedMetric .histogram metric).histogram =
      (exposedMetric .histogram metric).histogram.bucket := by
  obtain ⟨front, count, heq⟩ := exposedBuckets_eq metric.histogram
  have hlast : lastBound (exposedMetric .histogram metric).histogram.bucket = .posInf := by
    show lastBound ((exposedBuckets metric.histogram).map _) = _
    rw [heq, List.map_append, List.map_singleton, Histogram.lastBound_append]
    rfl
  rw [exposedBuckets, if_neg (not_not.mpr hlast), List.append_nil]

section Exposed

variable (family : MetricFamily)

theorem sample_exposed (metric : ClientMetric) (type : MetricType) (suffix : Bytes)
    (extra : List (Bytes × Bytes)) (value : Bytes) :
    sample (exposed family) (exposedMetric type metric) suffix extra value =
      sample family metric suffix extra value := by
  cases type <;> rfl

theorem bucketSample_exposed (metric : ClientMetric) (type : MetricType) (b : ClientMetric.Bucket) :
    bucketSample (exposed family) (exposedMetric type metric)
      ⟨b.cumulative_count, printed b.upper_bound⟩ = bucketSample family metric b := by
  rw [bucketSample, sample_exposed, valueText_printed, bucketSample]

theorem samples_exposed (metric : ClientMetric) (type : MetricType) :
    samples (exposed family) (exposedMetric type metric) type = samples family metric type := by
  have htotals : ∀ (type : MetricType) (sample_count : Nat) (sample_sum : Double),
      totalSamples (exposed family) (exposedMetric type metric) sample_count (printed sample_sum) =
        totalSamples family metric sample_count sample_sum := by
    intro type sample_count sample_sum
    rw [totalSamples, sample_exposed, sample_exposed, valueText_printed, totalSamples]
  cases type with
  | counter | gauge | info | untyped =>
      simp only [samples, sample_exposed]
      simp only [exposedMetric, valueText_printed]
  | summary =>
      have hquantiles : (exposedMetric .summary metric).summary.quantile =
          metric.summary.quantile.map fun q => ⟨printed q.quantile, printed q.value⟩ := rfl
      simp only [samples, summarySamples, hquantiles, List.map_map, Function.comp_def,
        sample_exposed, valueText_printed]
      exact congrArg (· ++ _) (htotals .summary _ _)
  | histogram =>
      have hbuckets : (exposedMetric .histogram metric).histogram.bucket =
          (exposedBuckets metric.histogram).map fun b =>
            ⟨b.cumulative_count, printed b.upper_bound⟩ := rfl
      simp only [samples, histogramSamples, exposedBuckets_exposedMetric, hbuckets, List.map_map,
        Function.comp_def, bucketSample_exposed]
      exact congrArg (· ++ _) (htotals .histogram _ _)

theorem typeName_exposedType : typeName (exposedType family) = typeName family.type := by
  unfold exposedType
  split_ifs with hinfo
  · rw [hinfo.1]
    rfl
  · rfl

theorem familySamples_exposed : familySamples (exposed family) = familySamples family := by
  rw [familySamples, familySamples, exposed, List.flatMap_map]
  refine List.flatMap_congr fun metric hmetric => ?_
  have hexposed : exposedType family = family.type :=
    if_neg fun h => List.ne_nil_of_mem hmetric h.2
  show samples (exposed family) (exposedMetric family.type metric) (exposedType family) = _
  rw [hexposed, samples_exposed]

theorem familyExposition_exposed : familyExposition (exposed family) = familyExposition family := by
  rw [familyExposition, familySamples_exposed, familyExposition]
  show (if family.help ≠ [] then [ExpositionLine.help family.name family.help] else []) ++
    .type family.name (typeName (exposedType family)) :: _ = _
  rw [typeName_exposedType]

end Exposed

theorem serialize_exposed (metrics : List MetricFamily) :
    serialize (metrics.map exposed) = serialize metrics := by
  rw [serialize_eq_expositionLines, serialize_eq_expositionLines, expositionLines, expositionLines,
    List.flatMap_map]
  simp only [familyExposition_exposed]

/-- Two scrapes have one text exactly if they expose the same families, metrics, labels, timestamps,
counts and sixteen-digit numbers. -/
theorem serialize_eq_iff (metrics others : List MetricFamily)
    (hnames : ∀ family ∈ metrics ++ others, WellNamed family)
    (hhelp : ∀ family ∈ metrics ++ others, PlainHelp family.help) :
    serialize metrics = serialize others ↔ metrics.map exposed = others.map exposed := by
  constructor
  · intro htext
    have hmetrics := readExposition_serialize metrics
      (fun family h => hnames family (List.mem_append_left _ h))
      fun family h => hhelp family (List.mem_append_left _ h)
    have hothers := readExposition_serialize others
      (fun family h => hnames family (List.mem_append_right _ h))
      fun family h => hhelp family (List.mem_append_right _ h)
    rw [htext, hothers] at hmetrics
    exact (Option.some.inj hmetrics).symm
  · intro hexposed
    rw [← serialize_exposed metrics, hexposed, serialize_exposed]

/-! ## A histogram and an info, and two gauges with one text -/

/-- The last bucket is not for infinity. -/
def latencies : MetricFamily where
  name := ascii "latencies"
  help := ascii "Seconds"
  type := .histogram
  metric :=
    [{ label := [⟨ascii "path", ascii "/\n"⟩]
       histogram := { sample_count := 3, sample_sum := 1, bucket := [⟨2, 1⟩] } }]

def build : MetricFamily := ⟨ascii "build", [], .info, []⟩

def ratio (value : ℚ) : MetricFamily := ⟨ascii "ratio", [], .gauge, [{ gauge := .ofRat value }]⟩

theorem readExposition_serialize_of_two :
    readExposition (serialize [latencies, build]) = some [exposed latencies, exposed build] :=
  readExposition_serialize [latencies, build] (by decide +kernel) (by decide +kernel)

/-- The seventeenth digit is not written. -/
theorem serialize_eq_iff_of_two :
    serialize [ratio 1] = serialize [ratio (1 + 1 / 10 ^ 17)] :=
  (serialize_eq_iff [ratio 1] [ratio (1 + 1 / 10 ^ 17)] (by decide +kernel) (by decide +kernel)).mpr
    (by decide +kernel)

end TextSerializer

end PrometheusCpp
