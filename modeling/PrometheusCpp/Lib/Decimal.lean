/-
# PrometheusCpp.Lib.Decimal -- decimal text of integers and rationals

The texts a C++ stream writes in its default state: integers in base ten, and doubles in the
general format (neither `fixed` nor `scientific` set) at a given precision, where the value is
correctly rounded to that many significant digits (ties to even), trailing zeros are dropped, and
an exponent is used when it would be below `-4` or not below the precision.
-/
import PrometheusCpp.Lib.ByteString
import Mathlib.Data.Int.Log
import Mathlib.Data.List.DropRight
import Mathlib.Data.Rat.Floor

namespace Decimal

open ByteString

/-! ## Integers -/

/-- The base-ten digits of a natural number. -/
def natText (n : Nat) : Bytes := (Nat.toDigits 10 n).map fun c => c.toNat.toUInt8

/-- A minus sign for a negative integer, and its digits. -/
def intText (n : Int) : Bytes := (if n < 0 then ascii "-" else []) ++ natText n.natAbs

/-! ## Rationals in the general format -/

/-- Rounding to the nearest integer, ties to the even one. -/
def roundHalfEven (x : ℚ) : Int :=
  let below := ⌊x⌋
  let rest := x - below
  if rest < 1 / 2 then below
  else if 1 / 2 < rest then below + 1
  else if below % 2 = 0 then below else below + 1

/-- The `p` significant digits of `x > 0` as one integer, and the exponent of the first digit.
Rounding `9.99...` up moves to the next decade. -/
def significand (p : Nat) (x : ℚ) : Nat × Int :=
  let exponent := Int.log 10 x
  let digits := (roundHalfEven (x * (10 : ℚ) ^ ((p : Int) - 1 - exponent))).toNat
  if digits = 10 ^ p then (10 ^ (p - 1), exponent + 1) else (digits, exponent)

def stripTrailingZeros (digits : Bytes) : Bytes := digits.rdropWhile (· == 48)

/-- The digits behind the decimal point, with the point, unless there are none. -/
def fraction (digits : Bytes) : Bytes :=
  let kept := stripTrailingZeros digits
  if kept = [] then [] else ascii "." ++ kept

def fixedText (digits : Bytes) (exponent : Int) : Bytes :=
  if 0 ≤ exponent then
    digits.take (exponent.toNat + 1) ++ fraction (digits.drop (exponent.toNat + 1))
  else
    ascii "0" ++ fraction (List.replicate ((-exponent).toNat - 1) 48 ++ digits)

/-- The exponent field has a sign and at least two digits. -/
def exponentText (exponent : Int) : Bytes :=
  (if exponent < 0 then ascii "e-" else ascii "e+") ++
    (if exponent.natAbs < 10 then ascii "0" else []) ++ natText exponent.natAbs

def scientificText (digits : Bytes) (exponent : Int) : Bytes :=
  digits.take 1 ++ fraction (digits.drop 1) ++ exponentText exponent

def positiveText (p : Nat) (x : ℚ) : Bytes :=
  let (digits, exponent) := significand p x
  if -4 ≤ exponent ∧ exponent < p then fixedText (natText digits) exponent
  else scientificText (natText digits) exponent

/-- The general format of a rational at precision `p`. -/
def generalText (p : Nat) (x : ℚ) : Bytes :=
  if x = 0 then ascii "0"
  else (if x < 0 then ascii "-" else []) ++ positiveText p |x|

example : generalText 16 (3 / 10) = ascii "0.3" := by decide +kernel
example : generalText 16 (-12345678901234567890) = ascii "-1.234567890123457e+19" := by
  decide +kernel

/-! ## The bytes of a number -/

/-- The bytes a formatted number is made of: digits, signs, the point and the exponent mark. -/
def isNumberByte (c : UInt8) : Bool := isDigit c || c == 43 || c == 45 || c == 46 || c == 101

/-- Every byte of the text is one that formatted numbers are made of. -/
def IsNumberText (text : Bytes) : Prop := ∀ c ∈ text, isNumberByte c

theorem IsNumberText.of_all {text : Bytes} (h : text.all isNumberByte = true) :
    IsNumberText text := List.all_eq_true.mp h

theorem IsNumberText.nil : IsNumberText [] := IsNumberText.of_all rfl

theorem IsNumberText.append {a b : Bytes} (ha : IsNumberText a) (hb : IsNumberText b) :
    IsNumberText (a ++ b) := by
  intro c hc
  rcases List.mem_append.mp hc with h | h
  · exact ha c h
  · exact hb c h

theorem IsNumberText.of_subset {a b : Bytes} (hb : IsNumberText b) (h : a ⊆ b) :
    IsNumberText a := fun c hc => hb c (h hc)

/-- Every byte is a digit. -/
def IsDigits (text : Bytes) : Prop := ∀ c ∈ text, isDigit c = true

theorem IsDigits.of_all {text : Bytes} (h : text.all isDigit = true) : IsDigits text :=
  List.all_eq_true.mp h

theorem IsDigits.of_subset {a b : Bytes} (hb : IsDigits b) (h : a ⊆ b) : IsDigits a :=
  fun c hc => hb c (h hc)

theorem IsDigits.not_mem {text : Bytes} (h : IsDigits text) {c : UInt8} (hc : isDigit c = false) :
    c ∉ text := not_mem_of_forall h hc

theorem natText_isDigits (n : Nat) : IsDigits (natText n) := by
  intro c hc
  obtain ⟨d, hd, rfl⟩ := List.mem_map.mp hc
  have hdigit : d.isDigit = true := Nat.isDigit_of_mem_toDigits (by omega) (by omega) hd
  have hrange : 48 ≤ d.toNat ∧ d.toNat ≤ 57 := by
    simpa [Char.isDigit, UInt32.le_iff_toNat_le] using hdigit
  have hsmall : d.toNat.toUInt8.toNat = d.toNat := by
    simp only [Nat.toUInt8_eq, UInt8.toNat_ofNat']
    omega
  simp only [isDigit, UInt8.le_iff_toNat_le, hsmall]
  simpa using hrange

theorem natText_isNumberText (n : Nat) : IsNumberText (natText n) := by
  intro c hc
  simp [isNumberByte, natText_isDigits n c hc]

theorem intText_isNumberText (n : Int) : IsNumberText (intText n) := by
  unfold intText
  refine IsNumberText.append ?_ (natText_isNumberText _)
  split
  · exact IsNumberText.of_all (by decide)
  · exact IsNumberText.nil

theorem fraction_isNumberText {digits : Bytes} (h : IsNumberText digits) :
    IsNumberText (fraction digits) := by
  simp only [fraction]
  split
  · exact IsNumberText.nil
  · refine IsNumberText.append (IsNumberText.of_all (by decide)) (h.of_subset ?_)
    exact (List.rdropWhile_prefix _ _).subset

theorem fixedText_isNumberText {digits : Bytes} (h : IsNumberText digits) (exponent : Int) :
    IsNumberText (fixedText digits exponent) := by
  unfold fixedText
  split
  · exact (h.of_subset (List.take_subset _ _)).append
      (fraction_isNumberText (h.of_subset (List.drop_subset _ _)))
  · refine IsNumberText.append (IsNumberText.of_all (by decide)) (fraction_isNumberText ?_)
    refine IsNumberText.append ?_ h
    intro c hc
    rw [List.eq_of_mem_replicate hc]
    decide

theorem scientificText_isNumberText {digits : Bytes} (h : IsNumberText digits) (exponent : Int) :
    IsNumberText (scientificText digits exponent) := by
  unfold scientificText exponentText
  refine IsNumberText.append ?_ (IsNumberText.append (IsNumberText.append ?_ ?_) ?_)
  · exact (h.of_subset (List.take_subset _ _)).append
      (fraction_isNumberText (h.of_subset (List.drop_subset _ _)))
  · split <;> exact IsNumberText.of_all (by decide)
  · split
    · exact IsNumberText.of_all (by decide)
    · exact IsNumberText.nil
  · exact natText_isNumberText _

theorem generalText_isNumberText (p : Nat) (x : ℚ) : IsNumberText (generalText p x) := by
  unfold generalText positiveText
  split
  · exact IsNumberText.of_all (by decide)
  · refine IsNumberText.append ?_ ?_
    · split
      · exact IsNumberText.of_all (by decide)
      · exact IsNumberText.nil
    · split
      split
      · exact fixedText_isNumberText (natText_isNumberText _) _
      · exact scientificText_isNumberText (natText_isNumberText _) _

/-- A byte that no formatted number contains is in no number text. -/
theorem IsNumberText.not_mem {text : Bytes} (h : IsNumberText text) {c : UInt8}
    (hc : isNumberByte c = false) : c ∉ text := not_mem_of_forall h hc

end Decimal
