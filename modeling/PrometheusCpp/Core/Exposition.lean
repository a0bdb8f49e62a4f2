/-
# PrometheusCpp.Core.Exposition -- the lines of a serialized exposition

What the serializer writes, as data: a family is an optional HELP line, a TYPE line and the sample
lines of its metrics, and the text is these lines, each followed by a newline
(`serialize_eq_lines`). Label values are escaped and numbers are made of harmless bytes; a HELP line
holds the help text as it is.
-/
import PrometheusCpp.Core.TextSerializer

namespace PrometheusCpp

open ByteString

namespace TextSerializer

/-! ## Sample lines -/

/-- A sample as the format has it: the full name, the labels with their values, and the texts of
the value and the timestamp, zero standing for none. -/
structure SampleLine where
  name : Bytes
  labels : List (Bytes × Bytes)
  value : Bytes
  timestamp : Int
  deriving DecidableEq

/-- How a label value is written. -/
def escapeByte (c : UInt8) : Bytes :=
  if c = newline then [backslash, letterN]
  else if c = backslash then [backslash, backslash]
  else if c = quote then [backslash, quote]
  else [c]

def escape (value : Bytes) : Bytes := value.flatMap escapeByte

def labelText (label : Bytes × Bytes) : Bytes :=
  label.1 ++ [equals, quote] ++ escape label.2 ++ [quote]

/-- The labels in braces, separated by commas, or nothing. -/
def labelsText : List (Bytes × Bytes) → Bytes
  | [] => []
  | label :: rest =>
    [openBrace] ++ labelText label ++ led comma (rest.map labelText) ++ [closeBrace]

def SampleLine.text (line : SampleLine) : Bytes :=
  line.name ++ labelsText line.labels ++ [space] ++ line.value ++
    (if line.timestamp ≠ 0 then [space] ++ Decimal.intText line.timestamp else [])

/-- What `WriteValue(double)` writes. -/
def valueText : Double → Bytes
  | .nan => ascii "Nan"
  | .num .negInf => ascii "-Inf"
  | .num .posInf => ascii "+Inf"
  | .num (.fin x) => Decimal.generalText precision x

def labelPairs (metric : ClientMetric) : List (Bytes × Bytes) :=
  metric.label.map fun label => (label.name, label.value)

section Samples

variable (family : MetricFamily) (metric : ClientMetric)

/-- A sample of a metric: a suffix to the family's name, labels behind the metric's own, a value. -/
def sample (suffix : Bytes) (extra : List (Bytes × Bytes)) (value : Bytes) : SampleLine where
  name := family.name ++ suffix
  labels := labelPairs metric ++ extra
  value := value
  timestamp := metric.timestamp_ms

def totalSamples (sample_count : Nat) (sample_sum : Double) : List SampleLine :=
  [sample family metric (ascii "_count") [] (Decimal.intText sample_count),
    sample family metric (ascii "_sum") [] (valueText sample_sum)]

def summarySamples : List SampleLine :=
  totalSamples family metric metric.summary.sample_count metric.summary.sample_sum ++
    metric.summary.quantile.map fun q =>
      sample family metric [] [(ascii "quantile", valueText q.quantile)] (valueText q.value)

def bucketSample (b : ClientMetric.Bucket) : SampleLine :=
  sample family metric (ascii "_bucket") [(ascii "le", valueText b.upper_bound)]
    (Decimal.intText b.cumulative_count)

/-- The bucket lines are those of the buckets, and one for infinity when the last is not. -/
def exposedBuckets (hist : ClientMetric.Histogram) : List ClientMetric.Bucket :=
  hist.bucket ++
    if lastBound hist.bucket ≠ .posInf then
      [{ cumulative_count := hist.sample_count, upper_bound := .posInf }]
    else []

def histogramSamples : List SampleLine :=
  totalSamples family metric metric.histogram.sample_count metric.histogram.sample_sum ++
    (exposedBuckets metric.histogram).map (bucketSample family metric)

/-- The samples of a metric of a type. -/
def samples : MetricType → List SampleLine
  | .counter => [sample family metric [] [] (valueText metric.counter)]
  | .gauge => [sample family metric [] [] (valueText metric.gauge)]
  | .info => [sample family metric (ascii "_info") [] (valueText metric.info)]
  | .untyped => [sample family metric [] [] (valueText metric.untyped)]
  | .summary => summarySamples family metric
  | .histogram => histogramSamples family metric

end Samples

def helpLine (family : MetricFamily) : Bytes :=
  ascii "# HELP " ++ family.name ++ [space] ++ family.help

def typeLine (family : MetricFamily) : Bytes :=
  ascii "# TYPE " ++ family.name ++ [space] ++ typeName family.type

def familySamples (family : MetricFamily) : List SampleLine :=
  family.metric.flatMap fun metric => samples family metric family.type

def sampleLines (family : MetricFamily) : List Bytes :=
  family.metric.flatMap fun metric => (samples family metric family.type).map SampleLine.text

theorem sampleLines_eq (family : MetricFamily) :
    sampleLines family = (familySamples family).map SampleLine.text := by
  rw [sampleLines, familySamples, List.map_flatMap]

def familyLines (family : MetricFamily) : List Bytes :=
  (if family.help ≠ [] then [helpLine family] else []) ++ typeLine family :: sampleLines family

/-! ## What the writers write -/

/-- The bytes of a sequence of insertions. -/
def render (insertions : List Insertion) : Bytes := insertions.flatMap Insertion.text

@[simp] theorem render_nil : render [] = [] := rfl

@[simp] theorem render_cons (i : Insertion) (is : List Insertion) :
    render (i :: is) = i.text ++ render is := rfl

@[simp] theorem render_append (is js : List Insertion) :
    render (is ++ js) = render is ++ render js := List.flatMap_append

theorem render_flatMap {α : Type} (f : α → List Insertion) (xs : List α) :
    render (xs.flatMap f) = xs.flatMap fun x => render (f x) := List.flatMap_assoc

theorem render_writeDouble (value : Double) : render (writeValue value) = valueText value := by
  rcases value with _ | _ | x | _
  · rfl
  · rfl
  · exact List.append_nil _
  · rfl

theorem render_writeBytes (value : Bytes) : render (writeValue value) = escape value := by
  show render (value.flatMap _) = value.flatMap escapeByte
  rw [render_flatMap]
  apply List.flatMap_congr
  intro c _
  unfold escapeByte
  split_ifs with hnewline hbackslash hquote
  · rfl
  · rw [hbackslash]
    rfl
  · rw [hquote]
    rfl
  · rfl

theorem render_writeLabels (labels : List ClientMetric.Label) : ∀ separator : Bytes,
    render (writeLabels separator labels) =
      match labels.map fun label => (label.name, label.value) with
      | [] => []
      | label :: rest => separator ++ labelText label ++ led comma (rest.map labelText) := by
  induction labels with
  | nil => intro separator; rfl
  | cons lp rest ih =>
      intro separator
      have hrest : render (writeLabels [comma] rest) =
          led comma ((rest.map fun label => (label.name, label.value)).map labelText) := by
        rw [ih]
        cases rest with
        | nil => rfl
        | cons second rest => simp
      simp only [writeLabels, render_append, render_cons, render_nil, Insertion.text,
        render_writeBytes, hrest, List.map_cons, labelText, List.append_nil, List.append_assoc]

/-- The extra label of a head, none for an empty name. -/
def extraLabel (name value : Bytes) : List (Bytes × Bytes) :=
  if name ≠ [] then [(name, value)] else []

theorem render_writeHead {T : Type} [WriteValue T] (family : MetricFamily) (metric : ClientMetric)
    (suffix extraLabelName : Bytes) {extraLabelValue : T} {value : Bytes}
    (hvalue : render (writeValue extraLabelValue) = escape value) :
    render (writeHead family metric suffix extraLabelName extraLabelValue) =
      family.name ++ suffix ++
        labelsText (labelPairs metric ++ extraLabel extraLabelName value) ++ [space] := by
  cases hlabels : metric.label with
  | nil =>
      by_cases hextra : extraLabelName = []
      · simp [writeHead, hlabels, hextra, labelPairs, extraLabel, labelsText, Insertion.text]
      · simp [writeHead, hlabels, hextra, labelPairs, extraLabel, labelsText, Insertion.text,
          render_writeLabels, hvalue, labelText]
  | cons lp rest =>
      by_cases hextra : extraLabelName = []
      · simp [writeHead, hlabels, hextra, labelPairs, extraLabel, labelsText, Insertion.text,
          render_writeLabels]
      · simp [writeHead, hlabels, hextra, labelPairs, extraLabel, labelsText, Insertion.text,
          render_writeLabels, hvalue, labelText]

/-! ## Bytes that escaping leaves alone -/

/-- The text has no byte that a label value would have to escape. -/
def IsPlain (text : Bytes) : Prop := newline ∉ text ∧ backslash ∉ text ∧ quote ∉ text

theorem escape_of_isPlain {text : Bytes} (h : IsPlain text) : escape text = text := by
  obtain ⟨hnewline, hbackslash, hquote⟩ := h
  have hbytes : ∀ c ∈ text, escapeByte c = [c] := by
    intro c hc
    have h₁ : c ≠ newline := fun heq => hnewline (heq ▸ hc)
    have h₂ : c ≠ backslash := fun heq => hbackslash (heq ▸ hc)
    have h₃ : c ≠ quote := fun heq => hquote (heq ▸ hc)
    rw [escapeByte, if_neg h₁, if_neg h₂, if_neg h₃]
  rw [escape, List.flatMap_congr hbytes, List.flatMap_singleton']

/-- No number has the byte in its text. -/
def NeverWritten (c : UInt8) : Prop := Decimal.isNumberByte c = false ∧ c ∉ ascii "Nan+-Inf"

theorem NeverWritten.not_mem_valueText {c : UInt8} (h : NeverWritten c) (value : Double) :
    c ∉ valueText value := by
  have hspecial : ∀ {text : Bytes}, text ⊆ ascii "Nan+-Inf" → c ∉ text :=
    fun hsub hmem => h.2 (hsub hmem)
  rcases value with _ | _ | x | _
  · exact hspecial (by decide)
  · exact hspecial (by decide)
  · exact (Decimal.generalText_isNumberText precision x).not_mem h.1
  · exact hspecial (by decide)

theorem NeverWritten.not_mem_intText {c : UInt8} (h : NeverWritten c) (n : Int) :
    c ∉ Decimal.intText n := (Decimal.intText_isNumberText n).not_mem h.1

theorem neverWritten_space : NeverWritten space := by unfold NeverWritten; decide

theorem neverWritten_newline : NeverWritten newline := by unfold NeverWritten; decide

theorem neverWritten_backslash : NeverWritten backslash := by unfold NeverWritten; decide

theorem neverWritten_quote : NeverWritten quote := by unfold NeverWritten; decide

theorem isPlain_valueText (value : Double) : IsPlain (valueText value) :=
  ⟨neverWritten_newline.not_mem_valueText value, neverWritten_backslash.not_mem_valueText value,
    neverWritten_quote.not_mem_valueText value⟩

/-- A formatted number is an extra label's value as it is. -/
theorem render_writeDouble_escape (value : Double) :
    render (writeValue value) = escape (valueText value) := by
  rw [render_writeDouble, escape_of_isPlain (isPlain_valueText value)]

/-! ## The text is its lines -/

theorem render_writeTail (metric : ClientMetric) :
    render (writeTail metric) =
      (if metric.timestamp_ms ≠ 0 then [space] ++ Decimal.intText metric.timestamp_ms else []) ++
        [newline] := by
  unfold writeTail
  split_ifs <;> simp [Insertion.text]

/-- A head, a value and a tail are a sample line. -/
theorem render_line {T : Type} [WriteValue T] (family : MetricFamily) (metric : ClientMetric)
    (suffix extraLabelName : Bytes) {extraLabelValue : T} {label value : Bytes}
    {written : List Insertion} (hlabel : render (writeValue extraLabelValue) = escape label)
    (hvalue : render written = value) :
    render (writeHead family metric suffix extraLabelName extraLabelValue ++ written ++
        writeTail metric) =
      (sample family metric suffix (extraLabel extraLabelName label) value).text ++ [newline] := by
  simp only [render_append, render_writeHead family metric suffix extraLabelName hlabel,
    render_writeTail, hvalue, sample, SampleLine.text, List.append_assoc]
  rfl

theorem render_plainLine (family : MetricFamily) (metric : ClientMetric) (suffix : Bytes)
    {value : Bytes} {written : List Insertion} (hvalue : render written = value) :
    render (writePlainHead family metric suffix ++ written ++ writeTail metric) =
      (sample family metric suffix [] value).text ++ [newline] :=
  render_line family metric suffix [] (render_writeBytes []) hvalue

theorem terminated_singleton (sep : UInt8) (piece : Bytes) :
    terminated sep [piece] = piece ++ [sep] := by simp [terminated]

theorem render_serializeValue (family : MetricFamily) (metric : ClientMetric) (suffix : Bytes)
    (value : Double) :
    render (serializeValue suffix value family metric) =
      terminated newline [(sample family metric suffix [] (valueText value)).text] := by
  rw [terminated_singleton, serializeValue,
    render_plainLine family metric suffix (render_writeDouble value)]

theorem render_serializeTotals (family : MetricFamily) (metric : ClientMetric) (sample_count : Nat)
    (sample_sum : Double) :
    render (serializeTotals sample_count sample_sum family metric) =
      terminated newline ((totalSamples family metric sample_count sample_sum).map
        SampleLine.text) := by
  have hcount : render [Insertion.uint sample_count] = Decimal.intText sample_count :=
    List.append_nil _
  rw [serializeTotals, render_append, render_plainLine family metric _ hcount,
    render_plainLine family metric _ (render_writeDouble sample_sum), totalSamples]
  simp [terminated]

theorem terminated_flatMap (sep : UInt8) {α : Type} (f : α → List Bytes) (xs : List α) :
    terminated sep (xs.flatMap f) = xs.flatMap fun x => terminated sep (f x) := List.flatMap_assoc

theorem terminated_map (sep : UInt8) {α : Type} (f : α → Bytes) (xs : List α) :
    terminated sep (xs.map f) = xs.flatMap fun x => f x ++ [sep] := by
  rw [terminated, List.flatMap_map]

theorem render_serializeSummary (family : MetricFamily) (metric : ClientMetric) :
    render (serializeSummary family metric) =
      terminated newline ((summarySamples family metric).map SampleLine.text) := by
  simp only [serializeSummary, summarySamples, render_append, render_serializeTotals,
    List.map_append, terminated_append, List.map_map, terminated_map, render_flatMap]
  congr 1
  apply List.flatMap_congr
  intro q _
  rw [← render_append, ← render_append]
  exact render_line family metric [] (ascii "quantile") (render_writeDouble_escape q.quantile)
    (render_writeDouble q.value)

theorem render_serializeHistogram (family : MetricFamily) (metric : ClientMetric) :
    render (serializeHistogram family metric) =
      terminated newline ((histogramSamples family metric).map SampleLine.text) := by
  have hbucket : ∀ b : ClientMetric.Bucket,
      render (writeHead family metric (ascii "_bucket") (ascii "le") b.upper_bound ++
          [.uint b.cumulative_count] ++ writeTail metric) =
        (bucketSample family metric b).text ++ [newline] := fun b =>
    render_line family metric (ascii "_bucket") (ascii "le")
      (render_writeDouble_escape b.upper_bound) (List.append_nil _)
  have hlast : ∀ count : Nat,
      render (writeHead family metric (ascii "_bucket") (ascii "le") (ascii "+Inf") ++
          [.uint count] ++ writeTail metric) =
        (bucketSample family metric ⟨count, .posInf⟩).text ++ [newline] := fun count =>
    render_line family metric (ascii "_bucket") (ascii "le") (render_writeBytes (ascii "+Inf"))
      (List.append_nil _)
  simp only [serializeHistogram, histogramSamples, exposedBuckets, render_append,
    render_serializeTotals, List.map_append, terminated_append, List.map_map, terminated_map,
    render_flatMap, List.append_assoc]
  congr 1
  congr 1
  · apply List.flatMap_congr
    intro b _
    simpa [render_append] using hbucket b
  · split_ifs
    · simpa [terminated, render_append] using hlast metric.histogram.sample_count
    · rfl

theorem render_serializeMetric (type : MetricType) (family : MetricFamily) (metric : ClientMetric) :
    render (serializeMetric type family metric) =
      terminated newline ((samples family metric type).map SampleLine.text) := by
  cases type with
  | counter => exact render_serializeValue family metric [] metric.counter
  | gauge => exact render_serializeValue family metric [] metric.gauge
  | info => exact render_serializeValue family metric (ascii "_info") metric.info
  | untyped => exact render_serializeValue family metric [] metric.untyped
  | summary => exact render_serializeSummary family metric
  | histogram => exact render_serializeHistogram family metric

theorem render_serializeFamily (family : MetricFamily) :
    render (serializeFamily family) = terminated newline (familyLines family) := by
  have hmetrics : render (family.metric.flatMap (serializeMetric family.type family)) =
      terminated newline (sampleLines family) := by
    rw [sampleLines, terminated_flatMap, render_flatMap]
    apply List.flatMap_congr
    intro metric _
    exact render_serializeMetric family.type family metric
  rw [serializeFamily, render_append, render_append, hmetrics, familyLines, terminated_append,
    terminated_cons]
  split_ifs <;> simp [Insertion.text, helpLine, typeLine]

/-- The text is the lines of the families, each followed by a newline. -/
theorem serialize_eq_lines (metrics : List MetricFamily) :
    serialize metrics = terminated newline (metrics.flatMap familyLines) := by
  show render (metrics.flatMap serializeFamily) = _
  rw [terminated_flatMap, render_flatMap]
  apply List.flatMap_congr
  intro family _
  exact render_serializeFamily family

end TextSerializer

end PrometheusCpp
