/-
# PrometheusCpp.Lib.OStream -- formatted output into a C++ stream

The formatting state of a `std::ostream` and what `operator<<` makes of it: numbers are printed in
the base, the float format and the precision of the stream and punctuated by its locale, the text is
padded to the width, and the width falls back to zero.

A float style at a precision, or the integer style of the flags, is all a number looks at; what a
style does not use of its flags is left out of its normal form (`FloatStyle.text_normal`).
-/
import PrometheusCpp.Lib.DecimalReading

namespace CppStream

open ByteString

/-! ## The formatting state -/

inductive Base where
  | dec
  | oct
  | hex
  deriving DecidableEq

inductive FloatFormat where
  | general
  | fixed
  | scientific
  | hexfloat
  deriving DecidableEq

inductive Adjust where
  | left
  | internal
  | right
  deriving DecidableEq

/-- The bits of `std::ios_base::fmtflags` that output looks at. -/
structure Flags where
  dec : Bool := true
  oct : Bool := false
  hex : Bool := false
  fixed : Bool := false
  scientific : Bool := false
  left : Bool := false
  right : Bool := false
  internal : Bool := false
  showbase : Bool := false
  showpoint : Bool := false
  showpos : Bool := false
  uppercase : Bool := false
  deriving DecidableEq

namespace Flags

/-- Octal or hexadecimal when that is the only bit of its field. -/
def base (f : Flags) : Base :=
  if f.oct && !f.dec && !f.hex then .oct
  else if f.hex && !f.dec && !f.oct then .hex
  else .dec

def floatFormat (f : Flags) : FloatFormat :=
  match f.fixed, f.scientific with
  | false, false => .general
  | true, false => .fixed
  | false, true => .scientific
  | true, true => .hexfloat

def adjust (f : Flags) : Adjust :=
  if f.left && !f.right && !f.internal then .left
  else if f.internal && !f.left && !f.right then .internal
  else .right

end Flags

/-- A locale, as far as the digits of a number are concerned: it sets a decimal point of its own and
separates groups of digits. -/
structure Locale where
  punctuate : Bytes → Bytes

def Locale.classic : Locale := ⟨id⟩

structure Formatting where
  locale : Locale := .classic
  precision : Int := 6
  flags : Flags := {}
  width : Int := 0
  fill : UInt8 := space

structure OStream where
  formatting : Formatting := {}
  written : Bytes := []

/-! ## Numbers -/

def upper (c : UInt8) : UInt8 := if isLower c then c - 32 else c

def point : UInt8 := 46

/-- The digits in a base, those beyond nine as lower-case letters. -/
def digitsText (base n : Nat) : Bytes := (Nat.toDigits base n).map fun c => c.toNat.toUInt8

structure IntStyle where
  base : Base
  showbase : Bool
  uppercase : Bool
  deriving DecidableEq

def Flags.intStyle (f : Flags) : IntStyle := ⟨f.base, f.showbase, f.uppercase⟩

namespace IntStyle

def text (s : IntStyle) (n : Nat) : Bytes :=
  match s.base with
  | .dec => Decimal.natText n
  | .oct => (if s.showbase && n ≠ 0 then ascii "0" else []) ++ digitsText 8 n
  | .hex =>
    let digits := (if s.showbase && n ≠ 0 then ascii "0x" else []) ++ digitsText 16 n
    if s.uppercase then digits.map upper else digits

/-- A prefix is for octal and hexadecimal numbers, and letters are in hexadecimal ones. -/
def normal (s : IntStyle) : IntStyle where
  base := s.base
  showbase := s.showbase && s.base ≠ .dec
  uppercase := s.uppercase && s.base = .hex

theorem text_normal (s : IntStyle) (n : Nat) : s.normal.text n = s.text n := by
  obtain ⟨base, showbase, uppercase⟩ := s
  cases base <;> simp [text, normal]

end IntStyle

structure FloatStyle where
  format : FloatFormat
  showpos : Bool
  showpoint : Bool
  uppercase : Bool
  deriving DecidableEq

def Flags.floatStyle (f : Flags) : FloatStyle := ⟨f.floatFormat, f.showpos, f.showpoint, f.uppercase⟩

namespace FloatStyle

/-- The digits behind the point, and the point without digits only if it is to be shown. -/
def fraction (showpoint : Bool) (digits : Bytes) : Bytes :=
  if digits = [] ∧ showpoint = false then [] else point :: digits

/-- The digits of a number below `base ^ length`, with zeros in front. -/
def padDigits (length : Nat) (digits : Bytes) : Bytes :=
  List.replicate (length - digits.length) 48 ++ digits

/-- `p` digits behind the point. -/
def fixedText (showpoint : Bool) (p : Nat) (x : ℚ) : Bytes :=
  let n := (Decimal.roundHalfEven (x * 10 ^ p)).toNat
  Decimal.natText (n / 10 ^ p) ++
    fraction showpoint (if p = 0 then [] else padDigits p (Decimal.natText (n % 10 ^ p)))

/-- The significant digits of a number that is not negative, zero having the exponent zero. -/
def significand (p : Nat) (x : ℚ) : Bytes × Int :=
  if x = 0 then (List.replicate p 48, 0)
  else (Decimal.natText (Decimal.significand p x).1, (Decimal.significand p x).2)

/-- One digit in front of the point and `p` behind it. -/
def scientificText (showpoint : Bool) (p : Nat) (x : ℚ) : Bytes :=
  let (digits, exponent) := significand (p + 1) x
  digits.take 1 ++ fraction showpoint (digits.drop 1) ++ Decimal.exponentText exponent

/-- `p` significant digits, all of them kept. -/
def generalPointText (p : Nat) (x : ℚ) : Bytes :=
  let (digits, exponent) := significand p x
  if 0 ≤ exponent ∧ exponent < p then
    digits.take (exponent.toNat + 1) ++ fraction true (digits.drop (exponent.toNat + 1))
  else if -4 ≤ exponent ∧ exponent < 0 then
    ascii "0" ++ fraction true (List.replicate ((-exponent).toNat - 1) 48 ++ digits)
  else digits.take 1 ++ fraction true (digits.drop 1) ++ Decimal.exponentText exponent

/-- The bits of a double as a hexadecimal number and a power of two, without a precision. -/
def hexText (showpoint : Bool) (x : ℚ) : Bytes :=
  let exponent := if x = 0 then 0 else max (Int.log 2 x) (-1022)
  let n := (Decimal.roundHalfEven (x * (2 : ℚ) ^ (52 - exponent))).toNat
  let digits := Decimal.stripTrailingZeros (padDigits 13 (digitsText 16 (n % 2 ^ 52)))
  ascii "0x" ++ Decimal.natText (n / 2 ^ 52) ++ fraction showpoint digits ++
    (if exponent < 0 then ascii "p-" else ascii "p+") ++ Decimal.natText exponent.natAbs

/-- The text of a number that is not negative. -/
def magnitudeText (s : FloatStyle) (p : Nat) (x : ℚ) : Bytes :=
  let cased (text : Bytes) : Bytes := if s.uppercase then text.map upper else text
  match s.format with
  | .general =>
    -- A precision of zero counts as one.
    cased (if s.showpoint then generalPointText (max p 1) x else Decimal.generalText (max p 1) x)
  | .fixed => fixedText s.showpoint p x
  | .scientific => cased (scientificText s.showpoint p x)
  | .hexfloat => cased (hexText s.showpoint x)

def text (s : FloatStyle) (p : Nat) (x : ℚ) : Bytes :=
  (if x < 0 then ascii "-" else if s.showpos then ascii "+" else []) ++ s.magnitudeText p |x|

/-- With digits behind the point, it is always shown in fixed and scientific numbers; fixed numbers
have no letters. -/
def normal (s : FloatStyle) : FloatStyle where
  format := s.format
  showpos := s.showpos
  showpoint := s.showpoint && (s.format = .general || s.format = .hexfloat)
  uppercase := s.uppercase && s.format ≠ .fixed

theorem fraction_of_ne_nil {digits : Bytes} (h : digits ≠ []) (showpoint : Bool) :
    fraction showpoint digits = point :: digits := if_neg fun hnil => h hnil.1

theorem length_significand {p : Nat} (hp : 0 < p) {x : ℚ} (hx : 0 ≤ x) :
    (significand p x).1.length = p := by
  unfold significand
  split_ifs with hzero
  · exact List.length_replicate
  · obtain ⟨hlow, hhigh⟩ := Decimal.significand_bounds hp (lt_of_le_of_ne hx (Ne.symm hzero))
    exact Decimal.length_natText hp hlow hhigh

/-- With a precision, a number looks only at the normal form of its style. -/
theorem text_normal (s : FloatStyle) {p : Nat} (hp : 0 < p) (x : ℚ) :
    s.normal.text p x = s.text p x := by
  have hfixed : ∀ showpoint, fixedText showpoint p |x| = fixedText false p |x| := by
    intro showpoint
    have hne : padDigits p (Decimal.natText
        ((Decimal.roundHalfEven (|x| * 10 ^ p)).toNat % 10 ^ p)) ≠ [] := by
      intro hnil
      have hlength := congrArg List.length hnil
      simp only [padDigits, List.length_append, List.length_replicate, List.length_nil] at hlength
      omega
    simp only [fixedText, if_neg hp.ne', fraction_of_ne_nil hne]
  have hscientific : ∀ showpoint,
      scientificText showpoint p |x| = scientificText false p |x| := by
    intro showpoint
    have hne : (significand (p + 1) |x|).1.drop 1 ≠ [] := by
      intro hnil
      have hlength := congrArg List.length hnil
      rw [List.length_drop, length_significand (Nat.succ_pos p) (abs_nonneg x)] at hlength
      simp only [List.length_nil] at hlength
      omega
    simp only [scientificText, fraction_of_ne_nil hne]
  obtain ⟨format, showpos, showpoint, uppercase⟩ := s
  unfold text magnitudeText
  cases format with
  | general => simp [normal]
  | fixed => simp [normal, hfixed showpoint]
  | scientific => simp [normal, hscientific showpoint]
  | hexfloat => simp [normal]

/-- The general format without any of the flags. -/
theorem text_default {p : Nat} (hp : 0 < p) (x : ℚ) :
    text ⟨.general, false, false, false⟩ p x = Decimal.generalText p x := by
  have hmax : max p 1 = p := max_eq_left hp
  simp only [text, magnitudeText, hmax, Bool.false_eq_true, if_false, Decimal.generalText, abs_abs,
    abs_eq_zero]
  by_cases hzero : x = 0
  · rw [if_pos hzero, if_pos hzero, hzero, if_neg (lt_irrefl 0), List.nil_append]
  · rw [if_neg hzero, if_neg hzero, if_neg (not_lt.mpr (abs_nonneg x)), List.nil_append]

end FloatStyle

/-! ## Insertions -/

namespace Formatting

/-- The precision that is used: a negative one counts as six. -/
def digits (f : Formatting) : Nat := if f.precision < 0 then 6 else f.precision.toNat

def doubleText (f : Formatting) (x : ℚ) : Bytes :=
  f.locale.punctuate (f.flags.floatStyle.text f.digits x)

/-- An unsigned integer has no plus sign. -/
def unsignedText (f : Formatting) (n : Nat) : Bytes :=
  f.locale.punctuate (f.flags.intStyle.text n)

/-- A signed integer of 64 bits; its bits are printed in the other bases. -/
def signedText (f : Formatting) (n : Int) : Bytes :=
  f.locale.punctuate <|
    match f.flags.base with
    | .dec =>
      (if n < 0 then ascii "-" else if f.flags.showpos then ascii "+" else []) ++
        Decimal.natText n.natAbs
    | _ => f.flags.intStyle.text (BitVec.ofInt 64 n).toNat

theorem signedText_congr {f₁ f₂ : Formatting} (hlocale : f₁.locale = f₂.locale)
    (hbase : f₁.flags.base = f₂.flags.base) (hshowpos : f₁.flags.showpos = f₂.flags.showpos)
    (hints : ∀ n, f₁.flags.intStyle.text n = f₂.flags.intStyle.text n) (n : Int) :
    f₁.signedText n = f₂.signedText n := by
  unfold signedText
  rw [hlocale, hbase, hshowpos, hints]

/-- What fills a text up to the width. -/
def padding (f : Formatting) (text : Bytes) : Bytes :=
  List.replicate (f.width - text.length).toNat f.fill

/-- A sign or the prefix of a hexadecimal number, behind which internal padding goes. -/
def signLength : Bytes → Nat
  | 43 :: _ => 1
  | 45 :: _ => 1
  | 48 :: 120 :: _ => 2
  | 48 :: 88 :: _ => 2
  | _ => 0

/-- A string or a character, padded to the width. -/
def padString (f : Formatting) (text : Bytes) : Bytes :=
  match f.flags.adjust with
  | .left => text ++ f.padding text
  | _ => f.padding text ++ text

/-- A number, padded to the width. -/
def padNumber (f : Formatting) (text : Bytes) : Bytes :=
  match f.flags.adjust with
  | .left => text ++ f.padding text
  | .internal => text.take (signLength text) ++ f.padding text ++ text.drop (signLength text)
  | .right => f.padding text ++ text

variable {f : Formatting}

/-- Without a width there is nothing to pad. -/
theorem padding_of_width_nonpos (h : f.width ≤ 0) (text : Bytes) : f.padding text = [] := by
  rw [padding, List.replicate_eq_nil_iff]
  omega

theorem padString_of_width_nonpos (h : f.width ≤ 0) (text : Bytes) : f.padString text = text := by
  unfold padString
  split <;> rw [padding_of_width_nonpos h] <;> simp

theorem padNumber_of_width_nonpos (h : f.width ≤ 0) (text : Bytes) : f.padNumber text = text := by
  unfold padNumber
  split <;> rw [padding_of_width_nonpos h] <;> simp

end Formatting

namespace OStream

/-- The bytes go to the end of the stream, and the width falls back to zero. -/
def put (out : OStream) (bytes : Bytes) : OStream where
  formatting := { out.formatting with width := 0 }
  written := out.written ++ bytes

def insertString (out : OStream) (text : Bytes) : OStream := out.put (out.formatting.padString text)

def insertNumber (out : OStream) (text : Bytes) : OStream := out.put (out.formatting.padNumber text)

end OStream

end CppStream
