/-
# PrometheusCpp.Core.StreamSerializer -- serializing into a stream of the caller

`Serialize` sets the locale and the precision of the stream and puts them back. The base, the float
format, the signs, the letter case and the width stay what the caller has set, so they are in the
text (`serializeTo_of_eq`): two streams get the same text exactly when these agree as far as
numbers and the first item look at them (`serializeTo_independent_iff`).
-/
import PrometheusCpp.Core.Exposition
import PrometheusCpp.Lib.OStream

namespace PrometheusCpp

open ByteString CppStream

namespace TextSerializer

/-! ## The code -/

/-- `out << ...`. -/
def Insertion.into (out : OStream) : Insertion → OStream
  | .str text => out.insertString text
  | .chr c => out.insertString [c]
  | .int n => out.insertNumber (out.formatting.signedText n)
  | .uint n => out.insertNumber (out.formatting.unsignedText n)
  | .dbl x => out.insertNumber (out.formatting.doubleText x)

/-- `TextSerializer::Serialize`. -/
def serializeTo (out : OStream) (metrics : List MetricFamily) : OStream :=
  let saved_locale := out.formatting.locale
  let saved_precision := out.formatting.precision
  let out := { out with
    formatting := { out.formatting with locale := .classic, precision := precision } }
  let out := (metrics.flatMap serializeFamily).foldl Insertion.into out
  { out with
    formatting := { out.formatting with locale := saved_locale, precision := saved_precision } }

/-! ## What is written -/

/-- The text of an insertion without padding. -/
def Insertion.textIn (f : Formatting) : Insertion → Bytes
  | .str text => text
  | .chr c => [c]
  | .int n => f.signedText n
  | .uint n => f.unsignedText n
  | .dbl x => f.doubleText x

def renderIn (f : Formatting) (insertions : List Insertion) : Bytes :=
  insertions.flatMap (Insertion.textIn f)

@[simp] theorem renderIn_nil (f : Formatting) : renderIn f [] = [] := rfl

@[simp] theorem renderIn_cons (f : Formatting) (i : Insertion) (is : List Insertion) :
    renderIn f (i :: is) = i.textIn f ++ renderIn f is := rfl

/-- The state in which the families are written. -/
def serializing (f : Formatting) : Formatting :=
  { f with locale := .classic, precision := precision }

/-- An insertion changes no part of the formatting but the width. -/
theorem into_formatting (out : OStream) (i : Insertion) :
    (i.into out).formatting = { out.formatting with width := 0 } := by
  cases i <;> rfl

theorem foldl_into (is : List Insertion) : ∀ {out : OStream}, out.formatting.width = 0 →
    is.foldl Insertion.into out =
      { out with written := out.written ++ renderIn out.formatting is } := by
  induction is with
  | nil => intro out _; simp
  | cons i is ih =>
      intro out hwidth
      have hstring : ∀ text, out.formatting.padString text = text :=
        out.formatting.padString_of_width_nonpos hwidth.le
      have hnumber : ∀ text, out.formatting.padNumber text = text :=
        out.formatting.padNumber_of_width_nonpos hwidth.le
      have hsame : { out.formatting with width := 0 } = out.formatting := by rw [← hwidth]
      have hfirst : i.into out = { out with written := out.written ++ i.textIn out.formatting } := by
        cases i <;> simp [Insertion.into, Insertion.textIn, OStream.insertString,
          OStream.insertNumber, OStream.put, hstring, hnumber, hsame]
      have hrest := @ih { out with written := out.written ++ i.textIn out.formatting } hwidth
      rw [List.foldl_cons, hfirst, hrest, renderIn_cons, List.append_assoc]

/-- Only the first item is padded. -/
theorem foldl_into_cons (text : Bytes) (is : List Insertion) (out : OStream) :
    (.str text :: is).foldl Insertion.into out =
      { formatting := { out.formatting with width := 0 }
        written := out.written ++ out.formatting.padString text ++ renderIn out.formatting is } := by
  rw [List.foldl_cons, foldl_into is rfl]
  rfl

/-- A family begins with a HELP or a TYPE line. -/
theorem exists_keyword (family : MetricFamily) (rest : List MetricFamily) :
    ∃ keyword is, (family :: rest).flatMap serializeFamily = .str keyword :: is ∧
      keyword.length = 7 := by
  rw [List.flatMap_cons]
  unfold serializeFamily
  split_ifs
  · exact ⟨_, _, rfl, rfl⟩
  · exact ⟨_, _, rfl, rfl⟩

theorem serializeTo_of_eq {metrics : List MetricFamily} {keyword : Bytes} {is : List Insertion}
    (h : metrics.flatMap serializeFamily = .str keyword :: is) (out : OStream) :
    serializeTo out metrics =
      { formatting := { out.formatting with width := 0 }
        written := out.written ++ out.formatting.padString keyword ++
          renderIn (serializing out.formatting) is } := by
  unfold serializeTo
  rw [h]
  simp only [foldl_into_cons]
  rfl

/-- What every insertion keeps of the formatting. -/
theorem foldl_into_formatting (is : List Insertion) : ∀ out : OStream, ∃ width,
    (is.foldl Insertion.into out).formatting = { out.formatting with width := width } := by
  induction is with
  | nil => intro out; exact ⟨out.formatting.width, rfl⟩
  | cons i is ih =>
      intro out
      obtain ⟨width, hrest⟩ := ih (i.into out)
      exact ⟨width, by rw [List.foldl_cons, hrest, into_formatting]⟩

/-- The formatting is the caller's again, but for the width. -/
structure Restored (out : OStream) (metrics : List MetricFamily) : Prop where
  locale : (serializeTo out metrics).formatting.locale = out.formatting.locale
  precision : (serializeTo out metrics).formatting.precision = out.formatting.precision
  flags : (serializeTo out metrics).formatting.flags = out.formatting.flags
  fill : (serializeTo out metrics).formatting.fill = out.formatting.fill

theorem serializeTo_restored (out : OStream) (metrics : List MetricFamily) :
    Restored out metrics := by
  obtain ⟨width, hformatting⟩ := foldl_into_formatting (metrics.flatMap serializeFamily)
    { out with formatting := serializing out.formatting }
  have hflags := congrArg Formatting.flags hformatting
  have hfill := congrArg Formatting.fill hformatting
  exact ⟨rfl, rfl, hflags, hfill⟩

/-! ## What the text depends on -/

/-- What the text of an exposition uses of the formatting: the styles of numbers, and the padding in
front of the first item, which is seven bytes long, and behind it. -/
@[ext] structure Effective where
  floats : FloatStyle
  ints : IntStyle
  front : Bytes
  back : Bytes

def effective (f : Formatting) : Effective where
  floats := f.flags.floatStyle.normal
  ints := f.flags.intStyle.normal
  front := if f.flags.adjust = .left then [] else List.replicate (f.width - 7).toNat f.fill
  back := if f.flags.adjust = .left then List.replicate (f.width - 7).toNat f.fill else []

section Effective

variable {f f₁ f₂ : Formatting}

theorem padString_eq {text : Bytes} (h : text.length = 7) :
    f.padString text = (effective f).front ++ text ++ (effective f).back := by
  unfold Formatting.padString Formatting.padding effective
  rw [h]
  cases f.flags.adjust <;> simp

theorem doubleText_serializing (f : Formatting) (x : ℚ) :
    (serializing f).doubleText x = (effective f).floats.text precision x :=
  (FloatStyle.text_normal f.flags.floatStyle (p := precision) (by decide) x).symm

theorem unsignedText_serializing (f : Formatting) (n : Nat) :
    (serializing f).unsignedText n = (effective f).ints.text n :=
  (f.flags.intStyle.text_normal n).symm

theorem textIn_congr (h : effective f₁ = effective f₂) (i : Insertion) :
    i.textIn (serializing f₁) = i.textIn (serializing f₂) := by
  have hfloats : (effective f₁).floats = (effective f₂).floats := congrArg Effective.floats h
  have hints : (effective f₁).ints = (effective f₂).ints := congrArg Effective.ints h
  cases i with
  | str text => rfl
  | chr c => rfl
  | dbl x => rw [Insertion.textIn, Insertion.textIn, doubleText_serializing, doubleText_serializing,
      hfloats]
  | uint n => rw [Insertion.textIn, Insertion.textIn, unsignedText_serializing,
      unsignedText_serializing, hints]
  | int n =>
      have hlocale : (serializing f₁).locale = (serializing f₂).locale := rfl
      apply Formatting.signedText_congr hlocale
      · exact congrArg IntStyle.base hints
      · exact congrArg FloatStyle.showpos hfloats
      · intro n
        show f₁.flags.intStyle.text n = f₂.flags.intStyle.text n
        rw [← IntStyle.text_normal f₁.flags.intStyle, ← IntStyle.text_normal f₂.flags.intStyle]
        exact congrArg (IntStyle.text · n) hints

theorem renderIn_congr (h : effective f₁ = effective f₂) (is : List Insertion) :
    renderIn (serializing f₁) is = renderIn (serializing f₂) is :=
  List.flatMap_congr fun i _ => textIn_congr h i

end Effective

/-- Both streams get the same text. -/
def SameText (out₁ out₂ : OStream) (metrics : List MetricFamily) : Prop :=
  ∃ text, (serializeTo out₁ metrics).written = out₁.written ++ text ∧
    (serializeTo out₂ metrics).written = out₂.written ++ text

theorem sameText_of_effective_eq {out₁ out₂ : OStream}
    (h : effective out₁.formatting = effective out₂.formatting) (metrics : List MetricFamily) :
    SameText out₁ out₂ metrics := by
  cases metrics with
  | nil => exact ⟨[], (List.append_nil _).symm, (List.append_nil _).symm⟩
  | cons family rest =>
      obtain ⟨keyword, is, hall, hlength⟩ := exists_keyword family rest
      refine ⟨out₁.formatting.padString keyword ++ renderIn (serializing out₁.formatting) is, ?_, ?_⟩
      · rw [serializeTo_of_eq hall, List.append_assoc]
      · rw [serializeTo_of_eq hall, List.append_assoc, renderIn_congr h, padString_eq hlength,
          padString_eq hlength, h]

/-! ## Telling two streams apart -/

/-- The float style, read off the texts of `1` and of `10 ^ 20`. -/
def readFloatStyle (one big : Bytes) : FloatStyle :=
  let format : FloatFormat :=
    if 120 ∈ one ∨ 88 ∈ one then .hexfloat
    else if 101 ∈ one ∨ 69 ∈ one then .scientific
    else if one.count 48 = precision then .fixed
    else .general
  { format
    showpos := one.head? = some 43
    showpoint := 46 ∈ one && (format = .general || format = .hexfloat)
    uppercase := (one ++ big).any isUpper }

theorem readFloatStyle_text (s : FloatStyle) :
    readFloatStyle (s.text precision 1) (s.text precision (10 ^ 20)) = s.normal := by
  obtain ⟨format, showpos, showpoint, uppercase⟩ := s
  cases format <;> cases showpos <;> cases showpoint <;> cases uppercase <;> decide +kernel

/-- The integer style, read off the text of ten. -/
def readIntStyle (ten : Bytes) : IntStyle where
  base :=
    if ten.any (fun c => isLower c || isUpper c) then .hex
    else if 50 ∈ ten then .oct
    else .dec
  showbase := ten.head? = some 48
  uppercase := ten.any isUpper

theorem readIntStyle_text (s : IntStyle) : readIntStyle (s.text 10) = s.normal := by
  obtain ⟨base, showbase, uppercase⟩ := s
  cases base <;> cases showbase <;> cases uppercase <;> decide +kernel

/-- Padding in front of the keyword is not padding behind it. -/
theorem replicate_eq_nil_of_keyword {k k' : Nat} {c c' : UInt8}
    (h : ascii "# TYPE " ++ List.replicate k c = List.replicate k' c' ++ ascii "# TYPE ") :
    List.replicate k c = [] ∧ List.replicate k' c' = [] := by
  have hlength : k = k' := by
    have := congrArg List.length h
    simp only [List.length_append, List.length_replicate] at this
    omega
  subst hlength
  -- The first two bytes of the keyword are different, but those of the padding are not.
  match k with
  | 0 => exact ⟨rfl, rfl⟩
  | 1 =>
      have hsecond := congrArg (fun text : Bytes => text[1]?) h
      exact absurd (Option.some.inj hsecond) (by decide)
  | k + 2 =>
      obtain rfl : 35 = c' := Option.some.inj (congrArg (fun text : Bytes => text[0]?) h)
      have hsecond := congrArg (fun text : Bytes => text[1]?) h
      exact absurd (Option.some.inj hsecond) (by decide)

theorem padding_eq_of_padString_eq {f₁ f₂ : Formatting}
    (h : f₁.padString (ascii "# TYPE ") = f₂.padString (ascii "# TYPE ")) :
    (effective f₁).front = (effective f₂).front ∧ (effective f₁).back = (effective f₂).back := by
  rw [padString_eq rfl, padString_eq rfl] at h
  unfold effective at h ⊢
  by_cases hleft₁ : f₁.flags.adjust = .left <;> by_cases hleft₂ : f₂.flags.adjust = .left <;>
    simp only [hleft₁, hleft₂, if_true, if_false, List.nil_append, List.append_nil] at h ⊢
  · exact ⟨trivial, List.append_cancel_left h⟩
  · obtain ⟨hback, hfront⟩ := replicate_eq_nil_of_keyword h
    exact ⟨hfront.symm, hback⟩
  · obtain ⟨hback, hfront⟩ := replicate_eq_nil_of_keyword h.symm
    exact ⟨hfront, hback.symm⟩
  · exact ⟨List.append_cancel_right h, trivial⟩

section Probes

/-- A gauge family with no name and perhaps a metric. -/
def gaugeProbe (metric : List ClientMetric) : MetricFamily := ⟨[], [], .gauge, metric⟩

/-- A summary with no name and a number of observations. -/
def countProbe (n : Nat) : MetricFamily := ⟨[], [], .summary, [{ summary := { sample_count := n } }]⟩

variable {out₁ out₂ : OStream} (h : ∀ metrics, SameText out₁ out₂ metrics)

include h

/-- What is written behind and with the padded keyword is the same. -/
theorem padString_renderIn_eq {family : MetricFamily} {is : List Insertion}
    (hfamily : serializeFamily family = .str (ascii "# TYPE ") :: is) :
    out₁.formatting.padString (ascii "# TYPE ") ++ renderIn (serializing out₁.formatting) is =
      out₂.formatting.padString (ascii "# TYPE ") ++ renderIn (serializing out₂.formatting) is := by
  have hall : [family].flatMap serializeFamily = .str (ascii "# TYPE ") :: is := by
    rw [List.flatMap_singleton, hfamily]
  obtain ⟨text, htext₁, htext₂⟩ := h [family]
  rw [serializeTo_of_eq hall, List.append_assoc] at htext₁ htext₂
  rw [List.append_cancel_left htext₁, List.append_cancel_left htext₂]

theorem padString_keyword_eq : out₁.formatting.padString (ascii "# TYPE ") =
    out₂.formatting.padString (ascii "# TYPE ") := by
  have hfamily : serializeFamily (gaugeProbe []) =
      [.str (ascii "# TYPE "), .str [], .str (space :: typeName .gauge ++ [newline])] := rfl
  exact List.append_cancel_right (padString_renderIn_eq h hfamily)

theorem doubleText_eq (x : ℚ) : (serializing out₁.formatting).doubleText x =
    (serializing out₂.formatting).doubleText x := by
  have hfamily : serializeFamily (gaugeProbe [{ gauge := .ofRat x }]) =
      [.str (ascii "# TYPE "), .str [], .str (space :: typeName .gauge ++ [newline]), .str [],
        .str [], .str [space], .dbl x, .str [newline]] := rfl
  have htext := padString_renderIn_eq h hfamily
  rw [padString_keyword_eq h] at htext
  simpa [Insertion.textIn] using List.append_cancel_left htext

theorem unsignedText_eq (n : Nat) : (serializing out₁.formatting).unsignedText n =
    (serializing out₂.formatting).unsignedText n := by
  have hfamily : serializeFamily (countProbe n) =
      [.str (ascii "# TYPE "), .str [], .str (space :: typeName .summary ++ [newline]), .str [],
        .str (ascii "_count"), .str [space], .uint n, .str [newline], .str [], .str (ascii "_sum"),
        .str [space], .dbl 0, .str [newline]] := rfl
  have htext := padString_renderIn_eq h hfamily
  rw [padString_keyword_eq h] at htext
  simpa [Insertion.textIn, doubleText_eq h] using List.append_cancel_left htext

theorem effective_eq_of_sameText : effective out₁.formatting = effective out₂.formatting := by
  obtain ⟨hfront, hback⟩ := padding_eq_of_padString_eq (padString_keyword_eq h)
  have hfloats : (effective out₁.formatting).floats = (effective out₂.formatting).floats := by
    show out₁.formatting.flags.floatStyle.normal = out₂.formatting.flags.floatStyle.normal
    rw [← readFloatStyle_text, ← readFloatStyle_text]
    exact congrArg₂ readFloatStyle (doubleText_eq h 1) (doubleText_eq h (10 ^ 20))
  have hints : (effective out₁.formatting).ints = (effective out₂.formatting).ints := by
    show out₁.formatting.flags.intStyle.normal = out₂.formatting.flags.intStyle.normal
    rw [← readIntStyle_text, ← readIntStyle_text]
    exact congrArg readIntStyle (unsignedText_eq h 10)
  exact Effective.ext hfloats hints hfront hback

end Probes

/-- Two streams are treated alike, whatever is serialized, if and only if their formatting agrees in
what the text uses of it; the caller's formatting is restored in any case. -/
theorem serializeTo_independent_iff (out₁ out₂ : OStream) :
    (∀ metrics, SameText out₁ out₂ metrics ∧ Restored out₁ metrics ∧ Restored out₂ metrics) ↔
      effective out₁.formatting = effective out₂.formatting := by
  constructor
  · intro h
    exact effective_eq_of_sameText fun metrics => (h metrics).1
  · intro h metrics
    exact ⟨sameText_of_effective_eq h metrics, serializeTo_restored out₁ metrics,
      serializeTo_restored out₂ metrics⟩

/-- After `std::hex` a count of ten is written as `a`. -/
theorem serializeTo_not_always_independent :
    ¬ ∀ (out₁ out₂ : OStream) (metrics : List MetricFamily), out₁.written = out₂.written →
      SameText out₁ out₂ metrics ∧ Restored out₁ metrics ∧ Restored out₂ metrics := by
  intro h
  obtain ⟨text, hdec, hhex⟩ :=
    (h {} { formatting := { flags := { dec := false, hex := true } } } [countProbe 10] rfl).1
  have hdiffer : (serializeTo {} [countProbe 10]).written ≠
      (serializeTo { formatting := { flags := { dec := false, hex := true } } }
        [countProbe 10]).written := by decide +kernel
  exact hdiffer (hdec.trans hhex.symm)

/-! ## A stream in its default state -/

/-- A stream with default flags and no width gets the text of `serialize`. -/
theorem serializeTo_default {out : OStream} (h : effective out.formatting = effective {})
    (metrics : List MetricFamily) :
    (serializeTo out metrics).written = out.written ++ serialize metrics := by
  have hnat : ∀ n : Nat, Decimal.natText n = Decimal.intText n := by
    intro n
    rw [Decimal.intText, if_neg (by omega), List.nil_append, Int.natAbs_natCast]
  have htext : ∀ i : Insertion, i.textIn (serializing {}) = i.text := by
    intro i
    cases i with
    | str text => rfl
    | chr c => rfl
    | int n => rfl
    | uint n => exact hnat n
    | dbl x => exact FloatStyle.text_default (by decide) x
  have hrender : ∀ is, renderIn (serializing {}) is = render is := fun is =>
    List.flatMap_congr fun i _ => htext i
  cases metrics with
  | nil => exact (List.append_nil _).symm
  | cons family rest =>
      obtain ⟨keyword, is, hall, hlength⟩ := exists_keyword family rest
      rw [serializeTo_of_eq hall, renderIn_congr h, hrender, padString_eq hlength, h]
      show _ = out.written ++ render ((family :: rest).flatMap serializeFamily)
      rw [hall]
      simp [effective, Flags.adjust, Insertion.text]

end TextSerializer

end PrometheusCpp
