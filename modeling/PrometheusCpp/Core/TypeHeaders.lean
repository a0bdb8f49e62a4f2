/-
# PrometheusCpp.Core.TypeHeaders -- which samples stand under the TYPE line of their metric

The TYPE line of a family is written from its name and type, its samples by a writer that puts
suffixes and labels of its own to the name. The format says which names a metric of a type has. A
reader meets the headers and the samples in the lines of the text, and what a help text holds behind
a newline is among them. The writers keep to the names but for one: info is declared as a gauge of the
family's name, and its samples are called something else (`serialize_samplesCovered_iff`).
-/
import PrometheusCpp.Core.LineStructure

namespace PrometheusCpp

open ByteString

namespace TextSerializer

/-! ## Reading a line -/

inductive ExpositionLine where
  | help (name text : Bytes)
  | type (name word : Bytes)
  | sample (line : SampleLine)
  deriving DecidableEq

/-- The name and the word of a TYPE line. -/
def readType (line : Bytes) : Option (Bytes × Bytes) :=
  let keyword := ascii "# TYPE "
  if line.take keyword.length = keyword then
    let rest := line.drop keyword.length
    some (before space rest, behind space rest)
  else none

def readLine (line : Bytes) : Option ExpositionLine :=
  match readHelp line with
  | some (name, text) => some (.help name text)
  | none =>
    match readType line with
    | some (name, word) => some (.type name word)
    | none => (readSample line).map .sample

/-- The headers and samples among the lines of a text. -/
def readLines (lines : List Bytes) : List ExpositionLine := lines.filterMap readLine

section Lines

variable {family : MetricFamily}

/-- A text that does not start with the mark of a header. -/
theorem readHeaders_of_head {c : UInt8} (hc : c ≠ 35) (text : Bytes) :
    readHelp (c :: text) = none ∧ readType (c :: text) = none := by
  have hhead : ∀ keyword : Bytes, keyword.head? = some 35 →
      (c :: text).take keyword.length ≠ keyword := by
    intro keyword hkeyword htake
    obtain ⟨rest, rfl⟩ : ∃ rest, keyword = 35 :: rest := List.head?_eq_some_iff.mp hkeyword
    rw [List.length_cons, List.take_succ_cons] at htake
    exact hc (List.cons.inj htake).1
  exact ⟨if_neg (hhead _ (by decide)), if_neg (hhead _ (by decide))⟩

theorem readLine_sample {line : SampleLine} (h : line.WellFormed) :
    readLine line.text = some (.sample line) := by
  obtain ⟨c, name, hname⟩ := List.exists_cons_of_ne_nil h.name_ne
  have hvalid : validMetricCharacter c = true := h.name c (hname ▸ List.mem_cons_self)
  have htext : ∃ text, line.text = c :: text := by
    refine ⟨name ++ labelsText line.labels ++ [space] ++ line.value ++
      (if line.timestamp ≠ 0 then [space] ++ Decimal.intText line.timestamp else []), ?_⟩
    rw [SampleLine.text, hname]
    rfl
  obtain ⟨text, heq⟩ := htext
  obtain ⟨hhelp, htype⟩ := readHeaders_of_head (c := c) (by rintro rfl; exact absurd hvalid (by decide)) text
  have hread := readSample_text h
  rw [heq] at hread
  rw [readLine, heq, hhelp, htype, hread]
  rfl

theorem readLine_type (hnames : WellNamed family) :
    readLine (typeLine family) = some (.type family.name (typeName family.type)) := by
  have hline : typeLine family =
      ascii "# TYPE " ++ (family.name ++ space :: typeName family.type) := by simp [typeLine]
  have hspace : space ∉ family.name := not_mem_metricName hnames.name (by decide)
  have hkeyword : (typeLine family).take (ascii "# HELP ").length ≠ ascii "# HELP " := by
    rw [hline, List.take_left' (by decide)]
    decide
  have hhelp : readHelp (typeLine family) = none := by
    unfold readHelp
    exact if_neg hkeyword
  have htype : readType (typeLine family) = some (family.name, typeName family.type) := by
    simp only [readType, hline, List.take_left, if_true, List.drop_left, before_append hspace,
      behind_append hspace]
  rw [readLine, hhelp, htype]

theorem readLine_help_of_wellNamed (hnames : WellNamed family) :
    readLine (helpLine family) = some (.help family.name (unescapeHelp family.help)) := by
  rw [readLine, readHelp_helpLine (not_mem_metricName hnames.name (by decide))]

end Lines

/-! ## What the format asks -/

/-- The names of the samples of metric `n` of type `t`. -/
def Belongs (n t : Bytes) (line : SampleLine) : Prop :=
  ((t = ascii "counter" ∨ t = ascii "gauge" ∨ t = ascii "untyped") ∧ line.name = n) ∨
  (t = ascii "summary" ∧ (line.name = n ++ ascii "_sum" ∨ line.name = n ++ ascii "_count" ∨
    (line.name = n ∧ ∃ label ∈ line.labels, label.1 = ascii "quantile"))) ∨
  (t = ascii "histogram" ∧ (line.name = n ++ ascii "_sum" ∨ line.name = n ++ ascii "_count" ∨
    (line.name = n ++ ascii "_bucket" ∧ ∃ label ∈ line.labels, label.1 = ascii "le")))

instance (n t : Bytes) (line : SampleLine) : Decidable (Belongs n t line) := by
  unfold Belongs
  infer_instance

/-- Every sample stands behind a TYPE line, without another header in between, to whose name and
type it is as `P` wants it. The header that is in effect is carried along. -/
def Under (P : Bytes → Bytes → SampleLine → Prop) :
    (header : Option (Bytes × Bytes)) → List ExpositionLine → Prop
  | _, [] => True
  | _, .help _ _ :: rest => Under P none rest
  | _, .type n t :: rest => Under P (some (n, t)) rest
  | none, .sample _ :: _ => False
  | some (n, t), .sample line :: rest => P n t line ∧ Under P (some (n, t)) rest

instance decidableUnder (P : Bytes → Bytes → SampleLine → Prop) [∀ n t line, Decidable (P n t line)] :
    ∀ header lines, Decidable (Under P header lines)
  | none, [] => isTrue trivial
  | some _, [] => isTrue trivial
  | none, .help _ _ :: rest => decidableUnder P none rest
  | some _, .help _ _ :: rest => decidableUnder P none rest
  | none, .type n t :: rest => decidableUnder P (some (n, t)) rest
  | some _, .type n t :: rest => decidableUnder P (some (n, t)) rest
  | none, .sample _ :: _ => isFalse id
  | some (n, t), .sample _ :: rest =>
    have := decidableUnder P (some (n, t)) rest
    inferInstanceAs (Decidable (_ ∧ _))

/-- The names of the metrics that the TYPE lines are for. -/
def typedNames (lines : List ExpositionLine) : List Bytes :=
  lines.filterMap fun line =>
    match line with
    | .type name _ => some name
    | _ => none

/-- A sample that belongs to the metric of the TYPE line it stands under, the only one for it. -/
def BelongsAlone (typed : List Bytes) (n t : Bytes) (line : SampleLine) : Prop :=
  Belongs n t line ∧ typed.count n = 1

instance (typed : List Bytes) (n t : Bytes) (line : SampleLine) :
    Decidable (BelongsAlone typed n t line) := by
  unfold BelongsAlone
  infer_instance

/-- Every sample among the lines of the text is one of the metric of the TYPE line it stands under, and
no other TYPE line of the text is for that metric. -/
def SamplesCovered (text : Bytes) : Prop :=
  let lines := readLines (text.splitOn newline)
  Under (BelongsAlone (typedNames lines)) none lines

instance (text : Bytes) : Decidable (SamplesCovered text) := by
  unfold SamplesCovered
  infer_instance

/-! ## The lines of a family -/

/-- What is read in a help text behind its first newline. -/
def furtherLines (help : Bytes) : List ExpositionLine := readLines (help.splitOn newline).tail

/-- What is read in the text of a family. -/
def linesOfFamily (family : MetricFamily) : List ExpositionLine :=
  (if family.help ≠ [] then
    .help family.name (unescapeHelp ((family.help.splitOn newline).headD [])) ::
      furtherLines family.help
  else []) ++ .type family.name (typeName family.type) :: (familySamples family).map .sample

theorem readLines_append (xs ys : List Bytes) : readLines (xs ++ ys) = readLines xs ++ readLines ys :=
  List.filterMap_append

theorem readLines_flatMap {α : Type} (f : α → List Bytes) (xs : List α) :
    readLines (xs.flatMap f) = xs.flatMap fun x => readLines (f x) := List.filterMap_flatMap

theorem furtherLines_of_newline_not_mem {help : Bytes} (h : newline ∉ help) :
    furtherLines help = [] := by
  rw [furtherLines, List.splitOn_eq_singleton h]
  rfl

/-- Splitting a HELP line cuts the help text after the part that stays on the line. -/
theorem splitOn_helpLine {family : MetricFamily} (h : WellNamed family) :
    (helpLine family).splitOn newline =
      helpLine { family with help := (family.help.splitOn newline).headD [] } ::
        (family.help.splitOn newline).tail := by
  have hfront : newline ∉ ascii "# HELP " ++ family.name ++ [space] := by
    have hkeyword : newline ∉ ascii "# HELP " := by decide
    have hspace : newline ∉ [space] := by decide
    simp only [List.mem_append, hkeyword, hspace,
      not_mem_metricName h.name (c := newline) (by decide), or_self, not_false_eq_true]
  obtain ⟨first, rest, hsplit⟩ :=
    List.exists_cons_of_ne_nil (List.splitOn_ne_nil newline family.help)
  rw [helpLine, splitOn_append_of_not_mem hfront, hsplit]
  rfl

theorem readLines_sampleLines {family : MetricFamily} (h : WellNamed family) :
    readLines (sampleLines family) = (familySamples family).map .sample := by
  rw [readLines, sampleLines_eq, List.filterMap_map, ← List.filterMap_eq_map]
  refine List.filterMap_congr fun line hline => ?_
  obtain ⟨metric, hmetric, hmem⟩ := List.mem_flatMap.mp hline
  exact readLine_sample (wellFormed_of_mem_samples h hmetric hmem)

theorem readLines_family {family : MetricFamily} (h : WellNamed family) :
    readLines ((familyLines family).flatMap fun line => line.splitOn newline) =
      linesOfFamily family := by
  -- The TYPE line and the samples are lines of their own.
  have hrest : (typeLine family :: sampleLines family).flatMap (fun line => line.splitOn newline) =
      typeLine family :: sampleLines family := by
    rw [List.flatMap_congr (g := fun line => [line]) fun line hline => List.splitOn_eq_singleton ?_,
      List.flatMap_singleton']
    rcases List.mem_cons.mp hline with rfl | hsample
    · exact newline_not_mem_typeLine h
    · exact newline_not_mem_sampleLines h hsample
  have hread : readLines (typeLine family :: sampleLines family) =
      .type family.name (typeName family.type) :: (familySamples family).map .sample := by
    rw [← readLines_sampleLines h, readLines, List.filterMap_cons_some (readLine_type h)]
    rfl
  rw [familyLines, List.flatMap_append, hrest, readLines_append, hread, linesOfFamily]
  split_ifs
  · have hfirst : WellNamed { family with help := (family.help.splitOn newline).headD [] } :=
      ⟨h.name, h.labels⟩
    rw [List.flatMap_singleton, splitOn_helpLine h, readLines,
      List.filterMap_cons_some (readLine_help_of_wellNamed hfirst)]
    rfl
  · rfl

/-- What is read in a text is what is read in the texts of its families. -/
theorem readLines_serialize {metrics : List MetricFamily}
    (h : ∀ family ∈ metrics, WellNamed family) :
    readLines ((serialize metrics).splitOn newline) = metrics.flatMap linesOfFamily := by
  rw [serialize_eq_lines, splitOn_terminated_flatMap, readLines_append, List.flatMap_assoc,
    readLines_flatMap,
    List.flatMap_congr fun family hfamily => readLines_family (h family hfamily)]
  exact List.append_nil _

section Under

variable {P : Bytes → Bytes → SampleLine → Prop}

theorem under_samples (n t : Bytes) (lines : List SampleLine) (rest : List ExpositionLine) :
    Under P (some (n, t)) (lines.map .sample ++ rest) ↔
      (∀ line ∈ lines, P n t line) ∧ Under P (some (n, t)) rest := by
  induction lines with
  | nil => simp
  | cons line lines ih =>
      rw [List.map_cons, List.cons_append, Under, ih, List.forall_mem_cons, and_assoc]

/-- A TYPE line is in effect from where it stands, whatever was before. -/
theorem under_append_type (lines rest : List ExpositionLine) (n t : Bytes) : ∀ header,
    Under P header (lines ++ .type n t :: rest) ↔
      Under P header lines ∧ Under P (some (n, t)) rest := by
  induction lines with
  | nil =>
      intro header
      cases header <;> exact (and_iff_right trivial).symm
  | cons line lines ih =>
      intro header
      cases line with
      | help name text => cases header <;> exact ih none
      | type name word => cases header <;> exact ih (some (name, word))
      | sample line =>
          cases header with
          | none => exact iff_of_false id fun h => h.1
          | some header =>
              rw [List.cons_append, Under, Under, ih, and_assoc]

theorem under_linesOfFamily (header : Option (Bytes × Bytes)) (family : MetricFamily)
    (rest : List ExpositionLine) :
    Under P header (linesOfFamily family ++ rest) ↔
      Under P none (furtherLines family.help) ∧
        (∀ line ∈ familySamples family, P family.name (typeName family.type) line) ∧
          Under P (some (family.name, typeName family.type)) rest := by
  rw [← under_samples, linesOfFamily, List.append_assoc, List.cons_append, under_append_type]
  refine and_congr_left fun _ => ?_
  split_ifs with hhelp
  · cases header <;> exact Iff.rfl
  · rw [not_not.mp hhelp]
    cases header <;> exact Iff.rfl

/-- The header in effect in front of a family does not matter to it. -/
theorem under_linesOfFamilies (metrics : List MetricFamily) :
    ∀ header, Under P header (metrics.flatMap linesOfFamily) ↔
      ∀ family ∈ metrics, Under P none (furtherLines family.help) ∧
        ∀ line ∈ familySamples family, P family.name (typeName family.type) line := by
  induction metrics with
  | nil => intro header; exact iff_of_true (by cases header <;> trivial) nofun
  | cons family metrics ih =>
      intro header
      rw [List.flatMap_cons, under_linesOfFamily, List.forall_mem_cons, ih, and_assoc]

end Under

/-! ## The names that are declared -/

/-- The names of the TYPE lines in the text of the families. -/
def declaredNames (metrics : List MetricFamily) : List Bytes :=
  metrics.flatMap fun family => typedNames (furtherLines family.help) ++ [family.name]

theorem typedNames_append (xs ys : List ExpositionLine) :
    typedNames (xs ++ ys) = typedNames xs ++ typedNames ys := List.filterMap_append

theorem typedNames_samples (lines : List SampleLine) : typedNames (lines.map .sample) = [] := by
  rw [typedNames, List.filterMap_map]
  exact List.filterMap_eq_nil_iff.mpr fun _ _ => rfl

theorem typedNames_linesOfFamily (family : MetricFamily) : typedNames (linesOfFamily family) =
    typedNames (furtherLines family.help) ++ [family.name] := by
  have htype : typedNames (.type family.name (typeName family.type) ::
      (familySamples family).map .sample) = [family.name] :=
    congrArg (family.name :: ·) (typedNames_samples _)
  rw [linesOfFamily, typedNames_append, htype]
  split_ifs with hhelp
  · rfl
  · rw [not_not.mp hhelp]
    rfl

theorem typedNames_linesOfFamilies (metrics : List MetricFamily) :
    typedNames (metrics.flatMap linesOfFamily) = declaredNames metrics := by
  rw [typedNames, List.filterMap_flatMap, declaredNames]
  exact List.flatMap_congr fun family _ => typedNames_linesOfFamily family

/-- With different names a family is the only one to declare its name if no help text does. -/
theorem count_declaredNames_iff {metrics : List MetricFamily}
    (hnames : (metrics.map MetricFamily.name).Nodup) {family : MetricFamily}
    (hfamily : family ∈ metrics) :
    (declaredNames metrics).count family.name = 1 ↔
      ∀ other ∈ metrics, family.name ∉ typedNames (furtherLines other.help) := by
  have hone : (metrics.map MetricFamily.name).count family.name = 1 :=
    List.count_eq_one_of_mem hnames (List.mem_map_of_mem hfamily)
  have hcount : ∀ (metrics : List MetricFamily) (n : Bytes), (declaredNames metrics).count n =
      (metrics.flatMap fun other => typedNames (furtherLines other.help)).count n +
        (metrics.map MetricFamily.name).count n := by
    intro metrics n
    induction metrics with
    | nil => rfl
    | cons other metrics ih =>
        rw [declaredNames, List.flatMap_cons, List.count_append, List.count_append,
          List.count_singleton, List.flatMap_cons, List.count_append, List.map_cons, List.count_cons,
          ← declaredNames, ih]
        omega
  rw [hcount, hone, Nat.add_eq_right, List.count_eq_zero, List.mem_flatMap]
  simp only [not_exists, not_and]

/-! ## Help texts that do no harm -/

/-- The samples in the help texts stand under TYPE lines in the same help texts, as the format asks,
and no help text holds a TYPE line for a family with metrics. -/
structure HelpsCovered (metrics : List MetricFamily) : Prop where
  own : ∀ family ∈ metrics, Under (BelongsAlone (declaredNames metrics)) none (furtherLines family.help)
  apart : ∀ family ∈ metrics, family.metric ≠ [] →
    ∀ other ∈ metrics, family.name ∉ typedNames (furtherLines other.help)

/-- Nothing is read behind the first newline of the help texts. -/
theorem helpsCovered_of_furtherLines {metrics : List MetricFamily}
    (h : ∀ family ∈ metrics, furtherLines family.help = []) : HelpsCovered metrics where
  own family hfamily := by
    rw [h family hfamily]
    trivial
  apart family _ _ other hother := by
    rw [h other hother]
    exact List.not_mem_nil

theorem helpsCovered_of_newline_not_mem {metrics : List MetricFamily}
    (h : ∀ family ∈ metrics, newline ∉ family.help) : HelpsCovered metrics :=
  helpsCovered_of_furtherLines fun family hfamily =>
    furtherLines_of_newline_not_mem (h family hfamily)

/-! ## The writers -/

section Writers

variable {family : MetricFamily} {metric : ClientMetric} {line : SampleLine}

theorem name_of_mem_totalSamples {sample_count : Nat} {sample_sum : Double}
    (h : line ∈ totalSamples family metric sample_count sample_sum) :
    line.name = family.name ++ ascii "_sum" ∨ line.name = family.name ++ ascii "_count" := by
  rcases List.mem_cons.mp h with rfl | h
  · exact .inr rfl
  · obtain rfl := List.mem_singleton.mp h
    exact .inl rfl

theorem summary_belongs (h : line ∈ summarySamples family metric) :
    Belongs family.name (typeName .summary) line := by
  refine .inr (.inl ⟨rfl, ?_⟩)
  rcases List.mem_append.mp h with htotal | hquantile
  · exact (name_of_mem_totalSamples htotal).imp_right .inl
  · obtain ⟨q, -, rfl⟩ := List.mem_map.mp hquantile
    exact .inr (.inr ⟨List.append_nil _, _, List.mem_append_right _ List.mem_cons_self, rfl⟩)

theorem histogram_belongs (h : line ∈ histogramSamples family metric) :
    Belongs family.name (typeName .histogram) line := by
  refine .inr (.inr ⟨rfl, ?_⟩)
  rcases List.mem_append.mp h with htotal | hbucket
  · exact (name_of_mem_totalSamples htotal).imp_right .inl
  · obtain ⟨b, -, rfl⟩ := List.mem_map.mp hbucket
    exact .inr (.inr ⟨rfl, _, List.mem_append_right _ List.mem_cons_self, rfl⟩)

/-- One sample with the name of the family itself. -/
theorem value_belongs {t value : Bytes}
    (ht : t = ascii "counter" ∨ t = ascii "gauge" ∨ t = ascii "untyped")
    (h : line ∈ [sample family metric [] [] value]) : Belongs family.name t line := by
  obtain rfl := List.mem_singleton.mp h
  exact .inl ⟨ht, List.append_nil _⟩

theorem belongs_of_mem_samples {type : MetricType} (htype : type ≠ .info)
    (h : line ∈ samples family metric type) : Belongs family.name (typeName type) line := by
  cases type with
  | counter => exact value_belongs (.inl rfl) h
  | gauge => exact value_belongs (.inr (.inl rfl)) h
  | untyped => exact value_belongs (.inr (.inr rfl)) h
  | info => exact absurd rfl htype
  | summary => exact summary_belongs h
  | histogram => exact histogram_belongs h

/-- The sample of an info is not named like the gauge its TYPE line declares. -/
theorem not_info_belongs (family : MetricFamily) (metric : ClientMetric) :
    ¬ Belongs family.name (typeName .info)
      (sample family metric (ascii "_info") [] (valueText metric.info)) := by
  rintro (⟨-, hname⟩ | ⟨htype, -⟩ | ⟨htype, -⟩)
  · exact absurd (List.append_right_eq_self.mp hname) (by decide)
  · exact absurd htype (by decide)
  · exact absurd htype (by decide)

end Writers

theorem samples_ne_nil (family : MetricFamily) (metric : ClientMetric) (type : MetricType) :
    samples family metric type ≠ [] := by
  cases type <;> exact List.cons_ne_nil _ _

/-- In the text of families with different, valid names the samples are covered by the TYPE lines if
and only if the help texts do no harm and no info family has a metric. -/
theorem serialize_samplesCovered_iff (metrics : List MetricFamily)
    (hnames : (metrics.map MetricFamily.name).Nodup)
    (hvalid : ∀ family ∈ metrics, WellNamed family) :
    SamplesCovered (serialize metrics) ↔
      HelpsCovered metrics ∧ ∀ family ∈ metrics, family.type = .info → family.metric = [] := by
  rw [SamplesCovered, readLines_serialize hvalid, typedNames_linesOfFamilies, under_linesOfFamilies]
  constructor
  · intro h
    refine ⟨⟨fun family hfamily => (h family hfamily).1, ?_⟩, ?_⟩
    · intro family hfamily hne
      obtain ⟨metric, hmetric⟩ := List.exists_mem_of_ne_nil _ hne
      obtain ⟨line, hline⟩ := List.exists_mem_of_ne_nil _ (samples_ne_nil family metric family.type)
      have halone := (h family hfamily).2 line (List.mem_flatMap.mpr ⟨metric, hmetric, hline⟩)
      exact (count_declaredNames_iff hnames hfamily).mp halone.2
    · intro family hfamily htype
      refine List.eq_nil_iff_forall_not_mem.mpr fun metric hmetric => ?_
      have hinfo : sample family metric (ascii "_info") [] (valueText metric.info) ∈
          familySamples family := by
        refine List.mem_flatMap.mpr ⟨metric, hmetric, ?_⟩
        rw [htype]
        exact List.mem_cons_self
      have hbelongs := ((h family hfamily).2 _ hinfo).1
      rw [htype] at hbelongs
      exact not_info_belongs family metric hbelongs
  · rintro ⟨hhelps, hinfo⟩ family hfamily
    refine ⟨hhelps.own family hfamily, fun line hline => ?_⟩
    obtain ⟨metric, hmetric, hsample⟩ := List.mem_flatMap.mp hline
    have htype : family.type ≠ .info := by
      intro htype
      rw [hinfo family hfamily htype] at hmetric
      exact absurd hmetric List.not_mem_nil
    exact ⟨belongs_of_mem_samples htype hsample,
      (count_declaredNames_iff hnames hfamily).mpr
        (hhelps.apart family hfamily (List.ne_nil_of_mem hmetric))⟩

/-! ## Families that are covered, and some that are not -/

/-- A gauge with a help text of two lines, a summary with labels and a quantile, and an info without
metrics. -/
def coveredFamilies : List MetricFamily :=
  [⟨ascii "depth", ascii "Items queued." ++ newline :: ascii "# by zone", .gauge,
      [{ label := [⟨ascii "zone", ascii "eu" ++ [newline]⟩], gauge := 3 }]⟩,
    ⟨ascii "latency", [], .summary,
      [{ label := [⟨ascii "path", ascii "/a"⟩]
         summary := { sample_count := 2, sample_sum := 5, quantile := [⟨1, 4⟩] } }]⟩,
    ⟨ascii "build", ascii "Version.", .info, []⟩]

theorem serialize_samplesCovered_of_three : SamplesCovered (serialize coveredFamilies) := by
  refine (serialize_samplesCovered_iff coveredFamilies (by decide) ?_).mpr
    ⟨helpsCovered_of_furtherLines ?_, by decide⟩
  · simp only [coveredFamilies, List.forall_mem_cons]
    exact ⟨⟨by decide, by decide⟩, ⟨by decide, by decide⟩, ⟨by decide, by decide⟩, nofun⟩
  · decide +kernel

/-- `build_info 1` stands under `# TYPE build gauge`. -/
theorem serialize_not_always_samplesCovered :
    ¬ ∀ metrics : List MetricFamily, (metrics.map MetricFamily.name).Nodup →
      SamplesCovered (serialize metrics) := by
  intro h
  have hcovered := h [⟨ascii "build", [], .info, [{}]⟩] (by decide)
  exact absurd hcovered (by decide +kernel)

/-- A help text with a line that reads as a sample. -/
example : ¬ SamplesCovered (serialize
    [⟨ascii "depth", ascii "a" ++ newline :: ascii "foo 1", .gauge, []⟩]) := by decide +kernel

end TextSerializer

end PrometheusCpp
