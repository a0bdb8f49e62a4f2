/-
# PrometheusCpp.Core.LineStructure -- when the data leaves the lines of an exposition intact

A reader splits an exposition at the newlines and undoes the escapes of a HELP line. With valid
names every sample and TYPE line is one line whatever the label values are, as `WriteValue` escapes
them. Help texts go out unescaped, so they decide: a newline in one makes a line too many, and an
escape sequence in one reads back as something else (`serialize_lines_iff`).
-/
import PrometheusCpp.Core.SampleReader
import PrometheusCpp.Lib.RelatedLists

namespace PrometheusCpp

open ByteString

namespace TextSerializer

/-! ## Reading a HELP line -/

/-- Undoes the two escapes of a help text; any other backslash stands for itself. -/
def unescapeHelp : Bytes → Bytes
  | c :: d :: rest =>
    if c = backslash ∧ d = backslash then backslash :: unescapeHelp rest
    else if c = backslash ∧ d = letterN then newline :: unescapeHelp rest
    else c :: unescapeHelp (d :: rest)
  | short => short

/-- The name and the help text of a HELP line. -/
def readHelp (line : Bytes) : Option (Bytes × Bytes) :=
  let keyword := ascii "# HELP "
  if line.take keyword.length = keyword then
    let rest := line.drop keyword.length
    some (before space rest, unescapeHelp (behind space rest))
  else none

/-- The two bytes are not read as an escape of a help text. -/
def NotEscape (c d : UInt8) : Prop := ¬ (c = backslash ∧ (d = backslash ∨ d = letterN))

theorem length_unescapeHelp_le (text : Bytes) : (unescapeHelp text).length ≤ text.length := by
  induction text using unescapeHelp.induct with
  | case1 c d rest h ih =>
      rw [unescapeHelp, if_pos h]
      simp only [List.length_cons]
      omega
  | case2 c d rest h h' ih =>
      rw [unescapeHelp, if_neg h, if_pos h']
      simp only [List.length_cons]
      omega
  | case3 c d rest h h' ih =>
      rw [unescapeHelp, if_neg h, if_neg h']
      simp only [List.length_cons] at ih ⊢
      omega
  | case4 text hshort => rw [unescapeHelp.eq_2 _ hshort]

/-- An escape makes the text shorter, so only a text without one reads back as itself. -/
theorem unescapeHelp_eq_self_iff (text : Bytes) :
    unescapeHelp text = text ↔ text.IsChain NotEscape := by
  induction text using unescapeHelp.induct with
  | case1 c d rest h ih =>
      have hlt := length_unescapeHelp_le rest
      rw [unescapeHelp, if_pos h, List.isChain_cons_cons]
      -- Two bytes become one, and what follows does not get longer.
      constructor
      · intro heq
        have := congrArg List.length heq
        simp only [List.length_cons] at this
        omega
      · rintro ⟨hnot, -⟩
        exact absurd ⟨h.1, .inl h.2⟩ hnot
  | case2 c d rest h h' ih =>
      have hlt := length_unescapeHelp_le rest
      rw [unescapeHelp, if_neg h, if_pos h', List.isChain_cons_cons]
      constructor
      · intro heq
        have := congrArg List.length heq
        simp only [List.length_cons] at this
        omega
      · rintro ⟨hnot, -⟩
        exact absurd ⟨h'.1, .inr h'.2⟩ hnot
  | case3 c d rest h h' ih =>
      rw [unescapeHelp, if_neg h, if_neg h', List.isChain_cons_cons, List.cons.injEq, ih]
      refine ⟨fun hrest => ⟨?_, hrest.2⟩, fun hrest => ⟨rfl, hrest.2⟩⟩
      rintro ⟨hc, hd | hd⟩
      · exact h ⟨hc, hd⟩
      · exact h' ⟨hc, hd⟩
  | case4 text hshort =>
      rw [unescapeHelp.eq_2 _ hshort]
      refine ⟨fun _ => ?_, fun _ => rfl⟩
      match text with
      | [] => exact .nil
      | [c] => exact .singleton c
      | c :: d :: rest => exact absurd rfl (hshort c d rest)

theorem readHelp_helpLine {family : MetricFamily} (h : space ∉ family.name) :
    readHelp (helpLine family) = some (family.name, unescapeHelp family.help) := by
  have hline : helpLine family =
      ascii "# HELP " ++ (family.name ++ space :: family.help) := by simp [helpLine]
  simp only [readHelp, hline, List.take_left, if_true, List.drop_left, before_append h,
    behind_append h]

/-! ## Lines without newlines -/

theorem newline_not_mem_sampleLines {family : MetricFamily} (h : WellNamed family) {line : Bytes}
    (hline : line ∈ sampleLines family) : newline ∉ line := by
  obtain ⟨metric, hmetric, hline⟩ := List.mem_flatMap.mp hline
  obtain ⟨sampleLine, hsample, rfl⟩ := List.mem_map.mp hline
  exact newline_not_mem_text (wellFormed_of_mem_samples h hmetric hsample)

theorem newline_not_mem_typeLine {family : MetricFamily} (h : WellNamed family) :
    newline ∉ typeLine family := by
  have hkeyword : newline ∉ ascii "# TYPE " := by decide
  have hspace : newline ∉ [space] := by decide
  have htype : newline ∉ typeName family.type := by
    cases family.type <;> decide
  simp only [typeLine, List.mem_append, hkeyword, hspace, htype,
    not_mem_metricName h.name (c := newline) (by decide), or_self, not_false_eq_true]

theorem newline_mem_helpLine {family : MetricFamily} (h : WellNamed family) :
    newline ∈ helpLine family ↔ newline ∈ family.help := by
  have hkeyword : newline ∉ ascii "# HELP " := by decide
  have hspace : newline ∉ [space] := by decide
  simp only [helpLine, List.mem_append, hkeyword, hspace,
    not_mem_metricName h.name (c := newline) (by decide), false_or]

/-! ## The lines a reader finds -/

/-- The lines are those of the family: a HELP line that reads back as its name and help, unless the
help is empty, the TYPE line, and the sample lines of its metrics. -/
def IsFamilyLines (family : MetricFamily) (lines : List Bytes) : Prop :=
  ∃ help, lines = help ++ typeLine family :: sampleLines family ∧
    (family.help = [] → help = []) ∧
    (family.help ≠ [] → ∃ line, help = [line] ∧ readHelp line = some (family.name, family.help))

/-- Splitting the text at its newlines gives the lines of each family in order, and no others; the
text ends behind a newline. -/
def HasLineStructure (metrics : List MetricFamily) (text : Bytes) : Prop :=
  ∃ blocks, List.Forall₂ IsFamilyLines metrics blocks ∧
    text.splitOn newline = blocks.flatten ++ [[]]

theorem IsFamilyLines.length_eq {family : MetricFamily} {lines : List Bytes}
    (h : IsFamilyLines family lines) : lines.length = (familyLines family).length := by
  obtain ⟨help, rfl, hempty, hline⟩ := h
  by_cases hhelp : family.help = []
  · simp [familyLines, hhelp, hempty hhelp]
  · obtain ⟨line, rfl, -⟩ := hline hhelp
    simp [familyLines, hhelp]

/-- The help text is safe to write as it is. -/
def PlainHelp (help : Bytes) : Prop := newline ∉ help ∧ help.IsChain NotEscape

theorem isFamilyLines_familyLines {family : MetricFamily} (h : WellNamed family)
    (hhelp : PlainHelp family.help) : IsFamilyLines family (familyLines family) := by
  refine ⟨_, rfl, fun hempty => by simp [hempty], fun hne => ⟨_, if_pos hne, ?_⟩⟩
  rw [readHelp_helpLine (not_mem_metricName h.name (by decide)),
    (unescapeHelp_eq_self_iff family.help).mpr hhelp.2]

theorem newline_not_mem_familyLines {family : MetricFamily} (h : WellNamed family)
    (hhelp : newline ∉ family.help) {line : Bytes} (hline : line ∈ familyLines family) :
    newline ∉ line := by
  rcases List.mem_append.mp hline with hfirst | hrest
  · split_ifs at hfirst
    · rw [List.mem_singleton.mp hfirst, newline_mem_helpLine h]
      exact hhelp
    · exact absurd hfirst List.not_mem_nil
  · rcases List.mem_cons.mp hrest with rfl | hsample
    · exact newline_not_mem_typeLine h
    · exact newline_not_mem_sampleLines h hsample

/-- A family whose own lines are what a reader finds has a help text that is safe. -/
theorem plainHelp_of_isFamilyLines {family : MetricFamily} (h : WellNamed family)
    (hlines : IsFamilyLines family (familyLines family))
    (hnewline : ∀ line ∈ familyLines family, newline ∉ line) : PlainHelp family.help := by
  by_cases hempty : family.help = []
  · rw [hempty]
    exact ⟨List.not_mem_nil, .nil⟩
  · have hfamily : familyLines family = helpLine family :: typeLine family :: sampleLines family := by
      simp [familyLines, hempty]
    obtain ⟨help, heq, -, hline⟩ := hlines
    obtain ⟨line, rfl, hread⟩ := hline hempty
    rw [hfamily] at heq hnewline
    obtain rfl : helpLine family = line := (List.cons.inj heq).1
    rw [readHelp_helpLine (not_mem_metricName h.name (by decide))] at hread
    refine ⟨?_, (unescapeHelp_eq_self_iff _).mp (Prod.mk.inj (Option.some.inj hread)).2⟩
    rw [← newline_mem_helpLine h]
    exact hnewline _ List.mem_cons_self

/-- The number of lines is only right when no line contains a newline. -/
theorem newline_not_mem_of_split {lines : List Bytes} {blocks : List (List Bytes)}
    (hlength : blocks.flatten.length = lines.length)
    (hsplit : (terminated newline lines).splitOn newline = blocks.flatten ++ [[]]) :
    ∀ line ∈ lines, newline ∉ line := by
  have hcount := congrArg List.length hsplit
  rw [length_splitOn, List.length_append, hlength, List.length_singleton] at hcount
  apply not_mem_of_count_terminated
  omega

/-- With valid names, a reader finds the lines of the families in the text, and every help text
behind its HELP line, if and only if no help text contains a newline, or a backslash in front of a
backslash or an `n`. -/
theorem serialize_lines_iff (metrics : List MetricFamily)
    (hnames : ∀ family ∈ metrics, WellNamed family) :
    HasLineStructure metrics (serialize metrics) ↔
      ∀ family ∈ metrics, PlainHelp family.help := by
  have hlines : metrics.flatMap familyLines = (metrics.map familyLines).flatten := rfl
  rw [HasLineStructure, serialize_eq_lines]
  constructor
  · rintro ⟨blocks, hall, hsplit⟩
    have hlengths : blocks.map List.length = (metrics.map familyLines).map List.length := by
      rw [List.map_map]
      exact (RelatedLists.map_eq hall fun family lines hblock => hblock.length_eq.symm).symm
    have hlength : blocks.flatten.length = (metrics.flatMap familyLines).length := by
      rw [hlines, List.length_flatten, List.length_flatten, hlengths]
    -- As many lines are found as were written, so none has been broken, and the blocks are the
    -- lines of the families themselves.
    have hnewline := newline_not_mem_of_split hlength hsplit
    rw [splitOn_terminated hnewline] at hsplit
    have hblocks : metrics.map familyLines = blocks :=
      List.eq_iff_flatten_eq.mpr ⟨List.append_cancel_right hsplit, hlengths.symm⟩
    rw [← hblocks, List.forall₂_map_right_iff, List.forall₂_same] at hall
    intro family hfamily
    apply plainHelp_of_isFamilyLines (hnames family hfamily) (hall family hfamily)
    intro line hline
    exact hnewline line (List.mem_flatMap.mpr ⟨family, hfamily, hline⟩)
  · intro hhelp
    refine ⟨metrics.map familyLines, ?_, ?_⟩
    · rw [List.forall₂_map_right_iff, List.forall₂_same]
      intro family hfamily
      exact isFamilyLines_familyLines (hnames family hfamily) (hhelp family hfamily)
    · apply splitOn_terminated
      intro line hline
      obtain ⟨family, hfamily, hline⟩ := List.mem_flatMap.mp hline
      exact newline_not_mem_familyLines (hnames family hfamily) (hhelp family hfamily).1 hline

/-! ## A help text that is safe, and one that is not -/

/-- A counter family `up` without metrics, with a help text. -/
def helped (help : Bytes) : MetricFamily := ⟨ascii "up", help, .counter, []⟩

theorem wellNamed_helped (help : Bytes) : WellNamed (helped help) where
  name := by
    show checkMetricName (ascii "up") = true
    decide
  labels := fun _ hmetric => absurd hmetric List.not_mem_nil

instance (family : MetricFamily) : Decidable (WellNamed family) :=
  decidable_of_iff (checkMetricName family.name = true ∧ ∀ metric ∈ family.metric,
      ∀ label ∈ metric.label, checkLabelName label.name family.type = true)
    ⟨fun h => ⟨h.1, h.2⟩, fun h => ⟨h.name, h.labels⟩⟩

instance (help : Bytes) : Decidable (PlainHelp help) :=
  decidable_of_iff (newline ∉ help ∧ unescapeHelp help = help)
    (and_congr_right' (unescapeHelp_eq_self_iff help))

/-- A label value with a quote and a newline. -/
def labelledUp : MetricFamily :=
  ⟨ascii "up", ascii "Is it up?", .gauge, [{ label := [⟨ascii "host", ascii "a\"b\nc"⟩], gauge := 1 }]⟩

theorem serialize_lines_iff_up : HasLineStructure [labelledUp] (serialize [labelledUp]) :=
  (serialize_lines_iff [labelledUp] (by decide +kernel)).mpr (by decide +kernel)

/-- A help text of two lines makes three lines of the two that the family has. -/
theorem serialize_lines_broken :
    ¬ ∀ metrics : List MetricFamily, (∀ family ∈ metrics, WellNamed family) →
      HasLineStructure metrics (serialize metrics) := by
  intro h
  have hnames : ∀ family ∈ [helped (ascii "up\nup")], WellNamed family := by
    intro family hfamily
    obtain rfl := List.mem_singleton.mp hfamily
    exact wellNamed_helped _
  obtain ⟨blocks, hall, hsplit⟩ := h [helped (ascii "up\nup")] hnames
  cases hall with
  | cons hblock hrest =>
      cases hrest with
      | nil =>
          have hlength := congrArg List.length hsplit
          rw [length_splitOn] at hlength
          simp only [List.flatten_cons, List.flatten_nil, List.append_nil, List.length_append,
            List.length_singleton, hblock.length_eq] at hlength
          have hcount : (serialize [helped (ascii "up\nup")]).count newline = 3 := by
            decide +kernel
          have hlines : (familyLines (helped (ascii "up\nup"))).length = 2 := by
            decide +kernel
          omega

end TextSerializer

end PrometheusCpp
