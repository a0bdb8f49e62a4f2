/-
# PrometheusCpp.Core.SampleReader -- reading a sample line

The grammar of a sample line as an automaton over bytes: a name, an optional list of labels in
braces whose values undo the escapes, and behind a space the value and perhaps a timestamp. Reading
the text of a well-formed sample gives the sample back (`readSample_text`), so nothing in a label
value can pass for another label, a value or a line.
-/
import PrometheusCpp.Core.Exposition
import PrometheusCpp.Lib.DecimalReading

namespace PrometheusCpp

open ByteString

namespace TextSerializer

/-! ## The automaton -/

/-- Where a reader is, with what it has read. -/
inductive Scan where
  | name (name : Bytes)
  | labelName (name : Bytes) (labels : List (Bytes × Bytes)) (label : Bytes)
  /-- Behind the equals sign, in front of the quote. -/
  | opening (name : Bytes) (labels : List (Bytes × Bytes)) (label : Bytes)
  | labelValue (name : Bytes) (labels : List (Bytes × Bytes)) (label value : Bytes)
  | escaped (name : Bytes) (labels : List (Bytes × Bytes)) (label value : Bytes)
  /-- Behind the quote that ends a value. -/
  | closed (name : Bytes) (labels : List (Bytes × Bytes))
  /-- Behind the closing brace. -/
  | finished (name : Bytes) (labels : List (Bytes × Bytes))
  /-- Behind the separating space. -/
  | rest (name : Bytes) (labels : List (Bytes × Bytes)) (rest : Bytes)
  | failed

namespace Scan

def step : Scan → UInt8 → Scan
  | name n, c =>
    if validMetricCharacter c then name (n ++ [c])
    else if n = [] then failed
    else if c = openBrace then labelName n [] []
    else if c = space then rest n [] []
    else failed
  | labelName n labels label, c =>
    if validLabelCharacter c then labelName n labels (label ++ [c])
    else if c = equals ∧ label ≠ [] then opening n labels label
    else failed
  | opening n labels label, c => if c = quote then labelValue n labels label [] else failed
  | labelValue n labels label value, c =>
    if c = quote then closed n (labels ++ [(label, value)])
    else if c = backslash then escaped n labels label value
    else if c = newline then failed
    else labelValue n labels label (value ++ [c])
  | escaped n labels label value, c =>
    if c = letterN then labelValue n labels label (value ++ [newline])
    else if c = backslash ∨ c = quote then labelValue n labels label (value ++ [c])
    else failed
  | closed n labels, c =>
    if c = comma then labelName n labels []
    else if c = closeBrace then finished n labels
    else failed
  | finished n labels, c => if c = space then rest n labels [] else failed
  | rest n labels text, c => rest n labels (text ++ [c])
  | failed, _ => failed

def run (s : Scan) (text : Bytes) : Scan := text.foldl step s

@[simp] theorem run_nil (s : Scan) : s.run [] = s := rfl

@[simp] theorem run_cons (s : Scan) (c : UInt8) (text : Bytes) :
    s.run (c :: text) = (s.step c).run text := rfl

@[simp] theorem run_append (s : Scan) (a b : Bytes) : s.run (a ++ b) = (s.run a).run b :=
  List.foldl_append

end Scan

/-- The name and the labels, and what is behind the separating space. -/
def readHead (text : Bytes) : Option (Bytes × List (Bytes × Bytes) × Bytes) :=
  match (Scan.name []).run text with
  | .rest name labels rest => some (name, labels, rest)
  | _ => none

/-- A whole sample; no timestamp is read as zero. -/
def readSample (line : Bytes) : Option SampleLine :=
  (readHead line).map fun (name, labels, rest) =>
    { name, labels, value := before space rest, timestamp := Decimal.readInt (behind space rest) }

/-! ## Well-formed samples -/

/-- What can be the name of a label in the text. -/
def IsLabelWord (name : Bytes) : Prop := name ≠ [] ∧ ∀ c ∈ name, validLabelCharacter c = true

structure SampleLine.WellFormed (line : SampleLine) : Prop where
  name_ne : line.name ≠ []
  name : ∀ c ∈ line.name, validMetricCharacter c = true
  labels : ∀ label ∈ line.labels, IsLabelWord label.1
  space_value : space ∉ line.value
  newline_value : newline ∉ line.value

/-! ## Reading what was written -/

namespace Scan

theorem run_name {text : Bytes} (h : ∀ c ∈ text, validMetricCharacter c = true) :
    ∀ n, (name n).run text = name (n ++ text) := by
  induction text with
  | nil => intro n; simp
  | cons c text ih =>
      intro n
      have hc : (name n).step c = name (n ++ [c]) := if_pos (h c List.mem_cons_self)
      rw [run_cons, hc, ih fun d hd => h d (List.mem_cons_of_mem _ hd), List.append_assoc]
      rfl

section Labels

variable (n : Bytes)

theorem run_labelName (labels : List (Bytes × Bytes)) {text : Bytes}
    (h : ∀ c ∈ text, validLabelCharacter c = true) :
    ∀ label, (labelName n labels label).run text = labelName n labels (label ++ text) := by
  induction text with
  | nil => intro label; simp
  | cons c text ih =>
      intro label
      have hc : (labelName n labels label).step c = labelName n labels (label ++ [c]) :=
        if_pos (h c List.mem_cons_self)
      rw [run_cons, hc, ih fun d hd => h d (List.mem_cons_of_mem _ hd), List.append_assoc]
      rfl

theorem run_escapeByte (labels : List (Bytes × Bytes)) (label value : Bytes) (c : UInt8) :
    (labelValue n labels label value).run (escapeByte c) =
      labelValue n labels label (value ++ [c]) := by
  unfold escapeByte
  split_ifs with hnewline hbackslash hquote
  · rw [hnewline]
    rfl
  · rw [hbackslash]
    rfl
  · rw [hquote]
    rfl
  · show (labelValue n labels label value).step c = _
    rw [step, if_neg hquote, if_neg hbackslash, if_neg hnewline]

/-- An escaped value is read without an end in it. -/
theorem run_escape (labels : List (Bytes × Bytes)) (label text : Bytes) : ∀ value,
    (labelValue n labels label value).run (escape text) =
      labelValue n labels label (value ++ text) := by
  induction text with
  | nil => intro value; simp [escape]
  | cons c text ih =>
      intro value
      show (labelValue n labels label value).run (escapeByte c ++ escape text) = _
      rw [run_append, run_escapeByte, ih, List.append_assoc]
      rfl

theorem run_labelText (labels : List (Bytes × Bytes)) {label : Bytes × Bytes}
    (h : IsLabelWord label.1) :
    (labelName n labels []).run (labelText label) = closed n (labels ++ [label]) := by
  have hequals : (labelName n labels label.1).step equals = opening n labels label.1 := by
    rw [step, if_neg (by decide), if_pos ⟨rfl, h.1⟩]
  have hopen : (opening n labels label.1).step quote = labelValue n labels label.1 [] := by
    rw [step, if_pos rfl]
  have hclose : (labelValue n labels label.1 label.2).step quote = closed n (labels ++ [label]) := by
    rw [step, if_pos rfl]
  rw [labelText, run_append, run_append, run_append, run_labelName n labels h.2, List.nil_append]
  show (((((labelName n labels label.1).step equals).step quote).run (escape label.2)).step quote) = _
  rw [hequals, hopen, run_escape, List.nil_append, hclose]

theorem run_moreLabels {rest : List (Bytes × Bytes)} (h : ∀ label ∈ rest, IsLabelWord label.1) :
    ∀ labels, (closed n labels).run (led comma (rest.map labelText)) = closed n (labels ++ rest) := by
  induction rest with
  | nil => intro labels; simp
  | cons label rest ih =>
      intro labels
      have hcomma : (closed n labels).step comma = labelName n labels [] := by rw [step, if_pos rfl]
      rw [List.map_cons, led_cons, List.cons_append, run_cons, hcomma, run_append,
        run_labelText n labels (h label List.mem_cons_self),
        ih fun other hother => h other (List.mem_cons_of_mem _ hother), List.append_assoc]
      rfl

theorem run_rest (labels : List (Bytes × Bytes)) (text : Bytes) : ∀ read,
    (rest n labels read).run text = rest n labels (read ++ text) := by
  induction text with
  | nil => intro read; simp
  | cons c text ih =>
      intro read
      show (rest n labels (read ++ [c])).run text = _
      rw [ih, List.append_assoc]
      rfl

theorem run_labelsText {n : Bytes} (hn : n ≠ []) {labels : List (Bytes × Bytes)}
    (h : ∀ label ∈ labels, IsLabelWord label.1) (text : Bytes) :
    (name n).run (labelsText labels ++ space :: text) = rest n labels text := by
  have hspace : (name n).step space = rest n [] [] := by
    rw [step, if_neg (by decide), if_neg hn, if_neg (by decide), if_pos rfl]
  have hopen : (name n).step openBrace = labelName n [] [] := by
    rw [step, if_neg (by decide), if_neg hn, if_pos rfl]
  have hclose : (closed n labels).step closeBrace = finished n labels := by
    rw [step, if_neg (by decide), if_pos rfl]
  have hend : (finished n labels).step space = rest n labels [] := by rw [step, if_pos rfl]
  cases labels with
  | nil =>
      show (name n).run (space :: text) = _
      rw [run_cons, hspace, run_rest, List.nil_append]
  | cons label more =>
      have hmore := run_moreLabels n (fun other hother => h other (List.mem_cons_of_mem _ hother))
        [label]
      rw [labelsText, run_append, run_append, run_append, run_append]
      show (((((((name n).step openBrace).run (labelText label)).run
        (led comma (more.map labelText))).step closeBrace).step space).run text) = _
      rw [hopen, run_labelText n [] (h label List.mem_cons_self), List.nil_append, hmore]
      show (((closed n (label :: more)).step closeBrace).step space).run text = _
      rw [hclose, hend, run_rest, List.nil_append]

end Labels

end Scan

/-- A head is read up to the separating space, whatever follows. -/
theorem readHead_head {name : Bytes} {labels : List (Bytes × Bytes)} (hne : name ≠ [])
    (hname : ∀ c ∈ name, validMetricCharacter c = true)
    (hlabels : ∀ label ∈ labels, IsLabelWord label.1) (text : Bytes) :
    readHead (name ++ labelsText labels ++ space :: text) = some (name, labels, text) := by
  have hrun : (Scan.name []).run (name ++ labelsText labels ++ space :: text) =
      .rest name labels text := by
    rw [List.append_assoc, Scan.run_append, Scan.run_name hname, List.nil_append,
      Scan.run_labelsText hne hlabels]
  rw [readHead, hrun]

/-- The text of a well-formed sample is read as the sample. -/
theorem readSample_text {line : SampleLine} (h : line.WellFormed) :
    readSample line.text = some line := by
  let tail := if line.timestamp ≠ 0 then [space] ++ Decimal.intText line.timestamp else []
  have htext : line.text = line.name ++ labelsText line.labels ++ space :: (line.value ++ tail) := by
    simp [SampleLine.text, tail]
  rw [readSample, htext, readHead_head h.name_ne h.name h.labels]
  by_cases htime : line.timestamp = 0
  · -- Without a timestamp there is no second space, and nothing behind it.
    have htail : tail = [] := if_neg (not_not.mpr htime)
    rw [htail, List.append_nil]
    show some (SampleLine.mk line.name line.labels (before space line.value)
      (Decimal.readInt (behind space line.value))) = some line
    rw [before_of_not_mem h.space_value, behind_of_not_mem h.space_value,
      show Decimal.readInt [] = 0 from rfl, ← htime]
  · have htail : tail = space :: Decimal.intText line.timestamp := if_pos htime
    rw [htail]
    show some (SampleLine.mk line.name line.labels (before space _)
      (Decimal.readInt (behind space _))) = some line
    rw [before_append h.space_value, behind_append h.space_value, Decimal.readInt_intText]

/-- Only the text of a sample with a name starts like one. -/
theorem readHead_cons_of_invalid {c : UInt8} (hc : validMetricCharacter c = false) (text : Bytes) :
    readHead (c :: text) = none := by
  have hfailed : ∀ text, Scan.failed.run text = Scan.failed := by
    intro text
    induction text with
    | nil => rfl
    | cons d text ih => exact ih
  have hc' : (Scan.name []).step c = Scan.failed := by
    rw [Scan.step, if_neg (by simp [hc]), if_pos rfl]
  rw [readHead, Scan.run_cons, hc', hfailed]

/-! ## The samples of a family are well formed -/

/-- The family and its labels have valid names. -/
structure WellNamed (family : MetricFamily) : Prop where
  name : checkMetricName family.name = true
  labels : ∀ metric ∈ family.metric, ∀ label ∈ metric.label,
    checkLabelName label.name family.type = true

theorem not_mem_metricName {name : Bytes} (h : checkMetricName name = true) {c : UInt8}
    (hc : validMetricCharacter c = false) : c ∉ name :=
  not_mem_of_forall (fun _ hd => validMetricCharacter_of_mem h hd) hc

theorem metricName_ne_nil {name : Bytes} (h : checkMetricName name = true) : name ≠ [] := by
  rintro rfl
  exact absurd h (by decide)

theorem isLabelWord_of_checkLabelName {name : Bytes} {type : MetricType}
    (h : checkLabelName name type = true) : IsLabelWord name := by
  refine ⟨?_, fun c hc => validLabelCharacter_of_mem h hc⟩
  rintro rfl
  cases type <;> exact absurd h (by decide)

/-- What a type appends to the name of its family. -/
def suffixes : MetricType → List Bytes
  | .counter => [[]]
  | .gauge => [[]]
  | .info => [ascii "_info"]
  | .untyped => [[]]
  | .summary => [[], ascii "_count", ascii "_sum"]
  | .histogram => [ascii "_count", ascii "_sum", ascii "_bucket"]

theorem validMetricCharacter_of_mem_suffixes {type : MetricType} {suffix : Bytes}
    (h : suffix ∈ suffixes type) : ∀ c ∈ suffix, validMetricCharacter c = true := by
  have hall : ∀ suffix ∈ suffixes type, suffix.all validMetricCharacter = true := by
    cases type <;> decide
  exact List.all_eq_true.mp (hall suffix h)

theorem isLabelWord_reserved {type : MetricType} {name : Bytes}
    (h : reservedLabelName type = some name) : IsLabelWord name := by
  cases type <;> cases h <;> exact ⟨by decide, List.all_eq_true.mp (by decide)⟩

section Samples

variable {family : MetricFamily} {metric : ClientMetric} {type : MetricType} {line : SampleLine}

/-- The parts of a sample: one of its type's suffixes, no label of the library or the one that is
reserved, and the text of a number. -/
def IsSample (family : MetricFamily) (metric : ClientMetric) (type : MetricType)
    (line : SampleLine) : Prop :=
  ∃ suffix ∈ suffixes type, ∃ extra value, line = sample family metric suffix extra value ∧
    (∀ label ∈ extra, reservedLabelName type = some label.1) ∧
    ∀ c, NeverWritten c → c ∉ value

theorem isSample_of_mem_totalSamples {sample_count : Nat} {sample_sum : Double}
    (hcount : ascii "_count" ∈ suffixes type) (hsum : ascii "_sum" ∈ suffixes type)
    (h : line ∈ totalSamples family metric sample_count sample_sum) :
    IsSample family metric type line := by
  rcases List.mem_cons.mp h with rfl | h
  · exact ⟨_, hcount, [], _, rfl, by simp, fun c hc => hc.not_mem_intText sample_count⟩
  · obtain rfl := List.mem_singleton.mp h
    exact ⟨_, hsum, [], _, rfl, by simp, fun c hc => hc.not_mem_valueText sample_sum⟩

theorem isSample_of_mem_value {suffix : Bytes} {value : Double} (hsuffix : suffix ∈ suffixes type)
    (h : line ∈ [sample family metric suffix [] (valueText value)]) :
    IsSample family metric type line := by
  obtain rfl := List.mem_singleton.mp h
  exact ⟨_, hsuffix, [], _, rfl, by simp, fun c hc => hc.not_mem_valueText value⟩

theorem isSample_of_mem_samples (h : line ∈ samples family metric type) :
    IsSample family metric type line := by
  cases type with
  | counter => exact isSample_of_mem_value (by decide) h
  | gauge => exact isSample_of_mem_value (by decide) h
  | info => exact isSample_of_mem_value (by decide) h
  | untyped => exact isSample_of_mem_value (by decide) h
  | summary =>
      rcases List.mem_append.mp h with htotal | hquantile
      · exact isSample_of_mem_totalSamples (by decide) (by decide) htotal
      · obtain ⟨q, -, rfl⟩ := List.mem_map.mp hquantile
        refine ⟨[], by decide, _, _, rfl, ?_, fun c hc => hc.not_mem_valueText q.value⟩
        simp only [List.mem_singleton, forall_eq]
        rfl
  | histogram =>
      rcases List.mem_append.mp h with htotal | hbucket
      · exact isSample_of_mem_totalSamples (by decide) (by decide) htotal
      · obtain ⟨b, -, rfl⟩ := List.mem_map.mp hbucket
        refine ⟨ascii "_bucket", by decide, _, _, rfl, ?_,
          fun c hc => hc.not_mem_intText b.cumulative_count⟩
        simp only [List.mem_singleton, forall_eq]
        rfl

theorem wellFormed_of_mem_samples (hnames : WellNamed family) (hmetric : metric ∈ family.metric)
    (h : line ∈ samples family metric family.type) : line.WellFormed := by
  obtain ⟨suffix, hsuffix, extra, value, rfl, hextra, hvalue⟩ := isSample_of_mem_samples h
  refine ⟨?_, ?_, ?_, hvalue _ neverWritten_space, hvalue _ neverWritten_newline⟩
  · show family.name ++ suffix ≠ []
    exact fun hnil => metricName_ne_nil hnames.name (List.append_eq_nil_iff.mp hnil).1
  · intro c hc
    rcases List.mem_append.mp hc with hname | hsuffix'
    · exact validMetricCharacter_of_mem hnames.name hname
    · exact validMetricCharacter_of_mem_suffixes hsuffix c hsuffix'
  · intro label hlabel
    rcases List.mem_append.mp hlabel with hown | hlib
    · obtain ⟨own, hmem, rfl⟩ := List.mem_map.mp hown
      exact isLabelWord_of_checkLabelName (hnames.labels metric hmetric own hmem)
    · exact isLabelWord_reserved (hextra label hlib)

end Samples

/-! ## Reading every sample of a text -/

theorem newline_not_mem_escape (value : Bytes) : newline ∉ escape value := by
  intro hmem
  obtain ⟨c, -, hc⟩ := List.mem_flatMap.mp hmem
  unfold escapeByte at hc
  split_ifs at hc with hnewline hbackslash hquote
  · exact absurd hc (by decide)
  · exact absurd hc (by decide)
  · exact absurd hc (by decide)
  · exact hnewline (List.mem_singleton.mp hc).symm

theorem newline_not_mem_labelText {label : Bytes × Bytes} (h : newline ∉ label.1) :
    newline ∉ labelText label := by
  have hmark : newline ∉ [equals, quote] := by decide
  have hquote : newline ∉ [quote] := by decide
  simp only [labelText, List.mem_append, h, hmark, hquote, newline_not_mem_escape, or_self,
    not_false_eq_true]

theorem newline_not_mem_labelsText {labels : List (Bytes × Bytes)}
    (h : ∀ label ∈ labels, newline ∉ label.1) : newline ∉ labelsText labels := by
  cases labels with
  | nil => exact List.not_mem_nil
  | cons label rest =>
      have hopen : newline ∉ [openBrace] := by decide
      have hclose : newline ∉ [closeBrace] := by decide
      have hfirst := newline_not_mem_labelText (h label List.mem_cons_self)
      have hrest : newline ∉ led comma (rest.map labelText) := by
        intro hmem
        obtain ⟨piece, hpiece, hmem⟩ := List.mem_flatMap.mp hmem
        obtain ⟨other, hother, rfl⟩ := List.mem_map.mp hpiece
        rcases List.mem_cons.mp hmem with hcomma | htext
        · exact absurd hcomma (by decide)
        · exact newline_not_mem_labelText (h other (List.mem_cons_of_mem _ hother)) htext
      simp only [labelsText, List.mem_append, hopen, hclose, hfirst, hrest, or_self,
        not_false_eq_true]

theorem newline_not_mem_text {line : SampleLine} (h : line.WellFormed) : newline ∉ line.text := by
  have hname : newline ∉ line.name := not_mem_of_forall h.name (by decide)
  have hlabels : newline ∉ labelsText line.labels := newline_not_mem_labelsText fun label hlabel =>
    not_mem_of_forall (h.labels label hlabel).2 (by decide)
  have hspace : newline ∉ [space] := by decide
  have htimestamp : newline ∉
      (if line.timestamp ≠ 0 then [space] ++ Decimal.intText line.timestamp else []) := by
    split_ifs
    · simp only [List.mem_append, hspace, neverWritten_newline.not_mem_intText, or_self,
        not_false_eq_true]
    · exact List.not_mem_nil
  simp only [SampleLine.text, List.mem_append, hname, hlabels, hspace, h.newline_value, htimestamp,
    or_self, not_false_eq_true]

/-- The samples of the lines that hold one. -/
def readSamples (text : Bytes) : List SampleLine := (text.splitOn newline).filterMap readSample

theorem filterMap_readSample_text {lines : List SampleLine} (h : ∀ line ∈ lines, line.WellFormed) :
    (lines.map SampleLine.text).filterMap readSample = lines := by
  rw [List.filterMap_map]
  calc lines.filterMap (readSample ∘ SampleLine.text)
      = lines.filterMap some := List.filterMap_congr fun line hline => readSample_text (h line hline)
    _ = lines := List.filterMap_some

theorem readSamples_terminated {lines : List SampleLine} (h : ∀ line ∈ lines, line.WellFormed) :
    readSamples (terminated newline (lines.map SampleLine.text)) = lines := by
  have hnewline : ∀ text ∈ lines.map SampleLine.text, newline ∉ text := by
    intro text htext
    obtain ⟨line, hline, rfl⟩ := List.mem_map.mp htext
    exact newline_not_mem_text (h line hline)
  rw [readSamples, splitOn_terminated hnewline, List.filterMap_append, filterMap_readSample_text h]
  exact List.append_nil _

/-! ## Reading values -/

/-- The double that `WriteValue` has written. -/
def readValue (text : Bytes) : Double :=
  if text = ascii "Nan" then .nan
  else if text = ascii "-Inf" then .negInf
  else if text = ascii "+Inf" then .posInf
  else .ofRat (Decimal.readDecimal text)

/-- The double with the digits that the precision of the stream leaves it. -/
def printed : Double → Double
  | .num (.fin x) => .ofRat (Decimal.rounded precision x)
  | value => value

theorem readValue_valueText (value : Double) : readValue (valueText value) = printed value := by
  rcases value with _ | _ | x | _
  · rfl
  · rfl
  · have hnumber := Decimal.generalText_isNumberText precision x
    -- The three words have a letter that is in no number.
    have hne : ∀ (c : UInt8) (text : Bytes), c ∈ text → Decimal.isNumberByte c = false →
        Decimal.generalText precision x ≠ text := fun c text hmem hc heq =>
      hnumber.not_mem hc (heq ▸ hmem)
    have hnan := hne 78 (ascii "Nan") (by decide) (by decide)
    have hneg := hne 73 (ascii "-Inf") (by decide) (by decide)
    have hpos := hne 73 (ascii "+Inf") (by decide) (by decide)
    show readValue (Decimal.generalText precision x) = _
    rw [readValue, if_neg hnan, if_neg hneg, if_neg hpos,
      Decimal.readDecimal_generalText (by decide)]
    rfl
  · rfl

end TextSerializer

end PrometheusCpp
