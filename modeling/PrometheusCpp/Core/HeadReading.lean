/-
# PrometheusCpp.Core.HeadReading -- the head of a sample line can be read back

`WriteHead` writes the name and the labels of a sample, and the reader of `SampleReader` takes them
back out of the text, whatever the label values are and whatever follows. Heads that differ in their
names or labels are therefore different texts (`readHead_writeHead`).
-/
import PrometheusCpp.Core.SampleReader

namespace PrometheusCpp

open ByteString

namespace TextSerializer

/-- The types `WriteHead` is used at: a string or a number. -/
inductive ExtraValue where
  | text (value : Bytes)
  | number (value : Double)
  deriving DecidableEq

instance : WriteValue ExtraValue where
  writeValue
    | .text value => writeValue value
    | .number value => writeValue value

/-- The string that stands for the value in the text. -/
def ExtraValue.string : ExtraValue → Bytes
  | .text value => value
  | .number value => valueText value

theorem ExtraValue.render_write (value : ExtraValue) :
    render (writeValue value) = escape value.string := by
  cases value with
  | text value => exact render_writeBytes value
  | number value => exact render_writeDouble_escape value

section Head

variable (family : MetricFamily) (metric : ClientMetric) (suffix extraLabelName : Bytes)
  (extraLabelValue : ExtraValue)

/-- The labels of a metric and the extra one behind them. -/
def headLabels : List (Bytes × Bytes) :=
  labelPairs metric ++ extraLabel extraLabelName extraLabelValue.string

/-- The names of a head have the characters the format allows; an empty name stands for no extra
label. -/
structure HeadNamed : Prop where
  name : checkMetricName family.name = true
  suffix : ∀ c ∈ suffix, validMetricCharacter c = true
  labels : ∀ label ∈ metric.label, IsLabelWord label.name
  extraLabelName : extraLabelName ≠ [] → IsLabelWord extraLabelName

variable {family metric suffix extraLabelName}

theorem HeadNamed.isLabelWord (h : HeadNamed family metric suffix extraLabelName)
    (extraLabelValue : ExtraValue) :
    ∀ label ∈ headLabels metric extraLabelName extraLabelValue, IsLabelWord label.1 := by
  intro label hlabel
  rcases List.mem_append.mp hlabel with hown | hextra
  · obtain ⟨own, hmem, rfl⟩ := List.mem_map.mp hown
    exact h.labels own hmem
  · unfold extraLabel at hextra
    split_ifs at hextra with hne
    · obtain rfl := List.mem_singleton.mp hextra
      exact h.extraLabelName hne
    · exact absurd hextra List.not_mem_nil

theorem HeadNamed.readHead_render (h : HeadNamed family metric suffix extraLabelName)
    (extraLabelValue : ExtraValue) (text : Bytes) :
    readHead (render (writeHead family metric suffix extraLabelName extraLabelValue) ++ text) =
      some (family.name ++ suffix, headLabels metric extraLabelName extraLabelValue, text) := by
  have hne : family.name ++ suffix ≠ [] := by
    intro hnil
    exact metricName_ne_nil h.name (List.append_eq_nil_iff.mp hnil).1
  have hname : ∀ c ∈ family.name ++ suffix, validMetricCharacter c = true := by
    intro c hc
    rcases List.mem_append.mp hc with hc | hc
    · exact validMetricCharacter_of_mem h.name hc
    · exact h.suffix c hc
  rw [render_writeHead family metric suffix extraLabelName extraLabelValue.render_write,
    List.append_assoc]
  exact readHead_head hne hname (h.isLabelWord extraLabelValue) text

end Head

/-- A reader takes the name with its suffix and the labels with the extra one out of a head and
stops behind its space, so heads with other names or labels are other texts. -/
theorem readHead_writeHead (family : MetricFamily) (metric : ClientMetric)
    (suffix extraLabelName : Bytes) (extraLabelValue : ExtraValue)
    (h : HeadNamed family metric suffix extraLabelName) :
    (∀ text, readHead (render (writeHead family metric suffix extraLabelName extraLabelValue) ++
        text) =
      some (family.name ++ suffix, headLabels metric extraLabelName extraLabelValue, text)) ∧
    ∀ family' metric' suffix' extraLabelName' extraLabelValue',
      HeadNamed family' metric' suffix' extraLabelName' →
      render (writeHead family metric suffix extraLabelName extraLabelValue) =
        render (writeHead family' metric' suffix' extraLabelName' extraLabelValue') →
      family.name ++ suffix = family'.name ++ suffix' ∧
        headLabels metric extraLabelName extraLabelValue =
          headLabels metric' extraLabelName' extraLabelValue' := by
  refine ⟨h.readHead_render extraLabelValue, ?_⟩
  intro family' metric' suffix' extraLabelName' extraLabelValue' h' heq
  have hread := h.readHead_render extraLabelValue []
  rw [heq, h'.readHead_render extraLabelValue' []] at hread
  obtain ⟨hname, hlabels⟩ := Prod.mk.inj (Option.some.inj hread)
  exact ⟨hname.symm, (Prod.mk.inj hlabels).1.symm⟩

/-- A label value that looks like the end of the labels, and an extra label. -/
theorem readHead_writeHead_up :
    readHead (render (writeHead ⟨ascii "up", [], .histogram, []⟩
        { label := [⟨ascii "path", ascii "\\\",b=\"\x7d"⟩] } (ascii "_bucket") (ascii "le")
        (ExtraValue.number .posInf)) ++ ascii "7") =
      some (ascii "up_bucket", [(ascii "path", ascii "\\\",b=\"\x7d"), (ascii "le", ascii "+Inf")],
        ascii "7") := by
  apply (readHead_writeHead ⟨ascii "up", [], .histogram, []⟩
    { label := [⟨ascii "path", ascii "\\\",b=\"\x7d"⟩] } (ascii "_bucket") (ascii "le")
    (.number .posInf) ?_).1
  refine ⟨by decide, List.all_eq_true.mp (by decide), ?_, fun _ => ?_⟩
  · intro label hlabel
    obtain rfl := List.mem_singleton.mp hlabel
    exact ⟨by decide, List.all_eq_true.mp (by decide)⟩
  · exact ⟨by decide, List.all_eq_true.mp (by decide)⟩

end TextSerializer

end PrometheusCpp
