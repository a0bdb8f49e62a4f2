/-
# PrometheusCpp.Lib.DecimalReading -- reading decimal text back

A reader for the texts of `Decimal`. Reading the general format of a number gives the number rounded
to the precision (`readDecimal_generalText`), and rounding to significant digits keeps the order
(`rounded_mono`), so of two numbers in order only those that round to the same digits are lost.
-/
import PrometheusCpp.Lib.Decimal
import Mathlib.Tactic.Positivity
import Mathlib.Tactic.FieldSimp
import Mathlib.Tactic.Ring

namespace Decimal

open ByteString

/-! ## The reader -/

def point : UInt8 := 46
def exponentMark : UInt8 := 101

/-- The number that digits stand for. -/
def digitsValue (digits : Bytes) : Nat := digits.foldl (fun n c => 10 * n + (c.toNat - 48)) 0

/-- Digits behind a sign or without one; no digits are zero. -/
def readInt (text : Bytes) : Int :=
  if text.take 1 = ascii "-" then -digitsValue (text.drop 1)
  else if text.take 1 = ascii "+" then digitsValue (text.drop 1)
  else digitsValue text

/-- Digits with a decimal point or without one. -/
def readMantissa (text : Bytes) : ℚ :=
  digitsValue (before point text ++ behind point text) / 10 ^ (behind point text).length

def readUnsigned (text : Bytes) : ℚ :=
  readMantissa (before exponentMark text) * 10 ^ readInt (behind exponentMark text)

def readDecimal (text : Bytes) : ℚ :=
  if text.take 1 = ascii "-" then -readUnsigned (text.drop 1) else readUnsigned text

/-! ## Digits -/

/-- Digits read on from a number. -/
theorem digitsValue_append (a b : Bytes) :
    digitsValue (a ++ b) = digitsValue a * 10 ^ b.length + digitsValue b := by
  have hfrom : ∀ (b : Bytes) (n : Nat), b.foldl (fun n c => 10 * n + (c.toNat - 48)) n =
      n * 10 ^ b.length + digitsValue b := by
    intro b
    induction b with
    | nil => intro n; simp [digitsValue]
    | cons c b ih =>
        intro n
        rw [digitsValue, List.foldl_cons, List.foldl_cons, ih, ih, List.length_cons, pow_succ]
        ring
  show (a ++ b).foldl _ 0 = _
  rw [List.foldl_append, hfrom]
  rfl

theorem digitsValue_replicate_zero (k : Nat) : digitsValue (List.replicate k 48) = 0 := by
  induction k with
  | zero => rfl
  | succ k ih => rw [List.replicate_succ', digitsValue_append, ih]; rfl

theorem digitsValue_natText (n : Nat) : digitsValue (natText n) = n := by
  induction n using Nat.strongRecOn with
  | ind n ih =>
    have hdigit : ∀ d < 10, digitsValue [(Nat.digitChar d).toNat.toUInt8] = d := by decide
    by_cases hsmall : n < 10
    · rw [natText, Nat.toDigits_of_lt_base hsmall]
      exact hdigit n hsmall
    · rw [natText, Nat.toDigits_of_base_le (by decide) (by omega), List.map_append,
        digitsValue_append]
      show digitsValue (natText (n / 10)) * 10 ^ 1 + _ = n
      rw [ih (n / 10) (by omega), List.map_singleton, hdigit (n % 10) (by omega)]
      omega

theorem length_natText {n p : Nat} (hp : 0 < p) (hlow : 10 ^ (p - 1) ≤ n) (hhigh : n < 10 ^ p) :
    (natText n).length = p := by
  rw [natText, List.length_map]
  have hle : (Nat.toDigits 10 n).length ≤ p := (Nat.length_toDigits_le_iff (by decide) hp).mpr hhigh
  apply le_antisymm hle
  by_contra hlt
  rw [not_le] at hlt
  by_cases hone : p - 1 = 0
  · have := Nat.length_toDigits_pos (b := 10) (n := n)
    omega
  · have := (Nat.length_toDigits_le_iff (b := 10) (n := n) (k := p - 1) (by decide) (by omega)).mp
      (by omega)
    omega

/-- Without its trailing zeros a fraction is worth the same. -/
theorem digitsValue_stripTrailingZeros (whole digits : Bytes) :
    (digitsValue (whole ++ stripTrailingZeros digits) : ℚ) / 10 ^ (stripTrailingZeros digits).length =
      digitsValue (whole ++ digits) / 10 ^ digits.length := by
  induction digits using List.reverseRecOn with
  | nil => rfl
  | append_singleton digits c ih =>
      by_cases hc : c = 48
      · have hstrip : stripTrailingZeros (digits ++ [c]) = stripTrailingZeros digits := by
          rw [stripTrailingZeros, List.rdropWhile_concat_pos _ _ _ (by simp [hc])]
          rfl
        have hvalue : digitsValue (whole ++ (digits ++ [c])) = digitsValue (whole ++ digits) * 10 := by
          rw [← List.append_assoc, digitsValue_append, hc]
          rfl
        rw [hstrip, ih, hvalue, List.length_append, List.length_singleton, pow_succ, Nat.cast_mul,
          Nat.cast_ofNat, mul_div_mul_right _ _ (by norm_num)]
      · rw [stripTrailingZeros, List.rdropWhile_concat_neg _ _ _ (by simpa using hc)]

/-! ## Significands -/

theorem roundHalfEven_intCast (n : Int) : roundHalfEven n = n := by
  simp [roundHalfEven]

theorem floor_le_roundHalfEven (x : ℚ) : ⌊x⌋ ≤ roundHalfEven x := by
  simp only [roundHalfEven]
  split_ifs <;> omega

theorem roundHalfEven_le_floor (x : ℚ) : roundHalfEven x ≤ ⌊x⌋ + 1 := by
  simp only [roundHalfEven]
  split_ifs <;> omega

theorem roundHalfEven_mono {x y : ℚ} (h : x ≤ y) : roundHalfEven x ≤ roundHalfEven y := by
  rcases (Int.floor_le_floor h).lt_or_eq with hlt | heq
  · have hx := roundHalfEven_le_floor x
    have hy := floor_le_roundHalfEven y
    omega
  · have hrest : x - ⌊x⌋ ≤ y - ⌊y⌋ := by
      rw [heq]
      exact sub_le_sub_right h _
    simp only [roundHalfEven, heq] at hrest ⊢
    split_ifs <;> first | omega | (exfalso; linarith)

/-- Ties are broken the same way on both sides of zero. -/
theorem roundHalfEven_neg (x : ℚ) : roundHalfEven (-x) = -roundHalfEven x := by
  have hlow := Int.floor_le x
  have hhigh := Int.lt_floor_add_one x
  rcases hlow.eq_or_lt with hint | hlt
  · rw [← hint, ← Int.cast_neg, roundHalfEven_intCast, roundHalfEven_intCast]
  · have hfloor : ⌊-x⌋ = -⌊x⌋ - 1 := by
      rw [Int.floor_eq_iff]
      push_cast
      constructor <;> linarith
    have hrest : -x - ((-⌊x⌋ - 1 : Int) : ℚ) = 1 - (x - ⌊x⌋) := by
      push_cast
      ring
    simp only [roundHalfEven, hfloor, hrest]
    split_ifs <;> first | omega | (exfalso; linarith)

/-- The value of a positive number rounded to `p` significant digits. -/
def roundedPositive (p : Nat) (x : ℚ) : ℚ :=
  (significand p x).1 * (10 : ℚ) ^ ((significand p x).2 - ((p : Int) - 1))

/-- The value of a number rounded to `p` significant digits. -/
def rounded (p : Nat) (x : ℚ) : ℚ :=
  if x = 0 then 0 else (if x < 0 then -1 else 1) * roundedPositive p |x|

theorem ten_zpow_pos (e : Int) : (0 : ℚ) < (10 : ℚ) ^ e := zpow_pos (by norm_num) e

section Significand

variable {p : Nat} {x : ℚ}

/-- Scaled to `p` digits in front of the point, a number is between two powers of ten. -/
theorem scaled_bounds (hp : 0 < p) (hx : 0 < x) :
    ((10 ^ (p - 1) : Nat) : ℚ) ≤ x * (10 : ℚ) ^ ((p : Int) - 1 - Int.log 10 x) ∧
      x * (10 : ℚ) ^ ((p : Int) - 1 - Int.log 10 x) < ((10 ^ p : Nat) : ℚ) := by
  have hten := ten_zpow_pos ((p : Int) - 1 - Int.log 10 x)
  have hlow := Int.zpow_log_le_self (b := 10) (by decide) hx
  have hhigh := Int.lt_zpow_succ_log_self (b := 10) (by decide) x
  rw [Nat.cast_ofNat] at hlow hhigh
  constructor
  · calc ((10 ^ (p - 1) : Nat) : ℚ)
        = (10 : ℚ) ^ Int.log 10 x * (10 : ℚ) ^ ((p : Int) - 1 - Int.log 10 x) := by
          rw [← zpow_add₀ (by norm_num), Nat.cast_pow, ← zpow_natCast, Nat.cast_ofNat]
          congr 1
          omega
      _ ≤ _ := mul_le_mul_of_nonneg_right hlow hten.le
  · calc x * (10 : ℚ) ^ ((p : Int) - 1 - Int.log 10 x)
        < (10 : ℚ) ^ (Int.log 10 x + 1) * (10 : ℚ) ^ ((p : Int) - 1 - Int.log 10 x) :=
          mul_lt_mul_of_pos_right hhigh hten
      _ = ((10 ^ p : Nat) : ℚ) := by
          rw [← zpow_add₀ (by norm_num), Nat.cast_pow, ← zpow_natCast, Nat.cast_ofNat]
          congr 1
          omega

theorem scaled_round_bounds (hp : 0 < p) (hx : 0 < x) :
    ((10 ^ (p - 1) : Nat) : Int) ≤ roundHalfEven (x * (10 : ℚ) ^ ((p : Int) - 1 - Int.log 10 x)) ∧
      roundHalfEven (x * (10 : ℚ) ^ ((p : Int) - 1 - Int.log 10 x)) ≤ ((10 ^ p : Nat) : Int) := by
  obtain ⟨hlow, hhigh⟩ := scaled_bounds hp hx
  constructor
  · have := roundHalfEven_mono hlow
    rwa [← Int.cast_natCast, roundHalfEven_intCast] at this
  · have := roundHalfEven_mono hhigh.le
    rwa [← Int.cast_natCast (10 ^ p), roundHalfEven_intCast] at this

/-- The digits are `p` many, whether or not the rounding has carried. -/
theorem significand_bounds (hp : 0 < p) (hx : 0 < x) :
    10 ^ (p - 1) ≤ (significand p x).1 ∧ (significand p x).1 < 10 ^ p := by
  obtain ⟨hlow, hhigh⟩ := scaled_round_bounds hp hx
  simp only [significand]
  split_ifs with hcarry
  · exact ⟨le_rfl, Nat.pow_lt_pow_right (by decide) (by omega)⟩
  · exact ⟨by omega, lt_of_le_of_ne (Int.toNat_le.mpr hhigh) hcarry⟩

/-- A carry moves the point and keeps the value. -/
theorem roundedPositive_eq (hp : 0 < p) (hx : 0 < x) :
    roundedPositive p x =
      roundHalfEven (x * (10 : ℚ) ^ ((p : Int) - 1 - Int.log 10 x)) *
        (10 : ℚ) ^ (Int.log 10 x - ((p : Int) - 1)) := by
  obtain ⟨hlow, hhigh⟩ := scaled_round_bounds hp hx
  have hcast : ((roundHalfEven (x * (10 : ℚ) ^ ((p : Int) - 1 - Int.log 10 x))).toNat : ℚ) =
      (roundHalfEven (x * (10 : ℚ) ^ ((p : Int) - 1 - Int.log 10 x)) : ℚ) := by
    rw [← Int.cast_natCast, Int.toNat_of_nonneg (le_trans (Int.natCast_nonneg _) hlow)]
  simp only [roundedPositive, significand]
  split_ifs with hcarry
  · rw [← hcast, hcarry, Nat.cast_pow, Nat.cast_pow, Nat.cast_ofNat, ← zpow_natCast, ← zpow_natCast,
      ← zpow_add₀ (by norm_num), ← zpow_add₀ (by norm_num)]
    congr 1
    omega
  · rw [hcast]

theorem roundedPositive_le (hp : 0 < p) (hx : 0 < x) :
    roundedPositive p x ≤ (10 : ℚ) ^ (Int.log 10 x + 1) := by
  have hhigh := (scaled_round_bounds hp hx).2
  have hcast : (roundHalfEven (x * (10 : ℚ) ^ ((p : Int) - 1 - Int.log 10 x)) : ℚ) ≤
      (10 : ℚ) ^ (p : Int) := by
    rw [zpow_natCast]
    exact_mod_cast hhigh
  rw [roundedPositive_eq hp hx]
  calc _ ≤ (10 : ℚ) ^ (p : Int) * (10 : ℚ) ^ (Int.log 10 x - ((p : Int) - 1)) :=
        mul_le_mul_of_nonneg_right hcast (ten_zpow_pos _).le
    _ = _ := by
        rw [← zpow_add₀ (by norm_num)]
        congr 1
        omega

theorem le_roundedPositive (hp : 0 < p) (hx : 0 < x) :
    (10 : ℚ) ^ Int.log 10 x ≤ roundedPositive p x := by
  have hlow := (scaled_round_bounds hp hx).1
  have hcast : (10 : ℚ) ^ ((p : Int) - 1) ≤
      (roundHalfEven (x * (10 : ℚ) ^ ((p : Int) - 1 - Int.log 10 x)) : ℚ) := by
    have hpow : (10 : ℚ) ^ ((p : Int) - 1) = ((10 ^ (p - 1) : Nat) : Int) := by
      rw [show (p : Int) - 1 = ((p - 1 : Nat) : Int) by omega, zpow_natCast]
      push_cast
      rfl
    rw [hpow]
    exact Int.cast_le.mpr hlow
  rw [roundedPositive_eq hp hx]
  calc (10 : ℚ) ^ Int.log 10 x
      = (10 : ℚ) ^ ((p : Int) - 1) * (10 : ℚ) ^ (Int.log 10 x - ((p : Int) - 1)) := by
        rw [← zpow_add₀ (by norm_num)]
        congr 1
        omega
    _ ≤ _ := mul_le_mul_of_nonneg_right hcast (ten_zpow_pos _).le

theorem roundedPositive_mono (hp : 0 < p) {y : ℚ} (hx : 0 < x) (hxy : x ≤ y) :
    roundedPositive p x ≤ roundedPositive p y := by
  have hy : 0 < y := lt_of_lt_of_le hx hxy
  rcases (Int.log_mono_right (b := 10) hx hxy).lt_or_eq with hlt | heq
  · -- A power of ten lies between numbers of different magnitude, and rounding does not cross it.
    calc roundedPositive p x ≤ (10 : ℚ) ^ (Int.log 10 x + 1) := roundedPositive_le hp hx
      _ ≤ (10 : ℚ) ^ Int.log 10 y := zpow_le_zpow_right₀ (by norm_num) (by omega)
      _ ≤ roundedPositive p y := le_roundedPositive hp hy
  · -- Numbers of one magnitude are rounded on one grid.
    rw [roundedPositive_eq hp hx, roundedPositive_eq hp hy, heq]
    apply mul_le_mul_of_nonneg_right _ (ten_zpow_pos _).le
    apply Int.cast_le.mpr
    apply roundHalfEven_mono
    exact mul_le_mul_of_nonneg_right hxy (ten_zpow_pos _).le

theorem roundedPositive_pos (hp : 0 < p) (hx : 0 < x) : 0 < roundedPositive p x :=
  lt_of_lt_of_le (ten_zpow_pos _) (le_roundedPositive hp hx)

/-- Rounding to significant digits keeps the order. -/
theorem rounded_mono (hp : 0 < p) {y : ℚ} (h : x ≤ y) : rounded p x ≤ rounded p y := by
  have hpositive : ∀ {z : ℚ}, 0 < z → rounded p z = roundedPositive p z := by
    intro z hz
    rw [rounded, if_neg hz.ne', if_neg hz.not_gt, one_mul, abs_of_pos hz]
  have hnegative : ∀ {z : ℚ}, z < 0 → rounded p z = -roundedPositive p (-z) := by
    intro z hz
    rw [rounded, if_neg hz.ne, if_pos hz, neg_one_mul, abs_of_neg hz]
  have hzero : rounded p 0 = 0 := if_pos rfl
  rcases lt_trichotomy x 0 with hx | rfl | hx
  · have hxr := roundedPositive_pos hp (neg_pos.mpr hx)
    rw [hnegative hx]
    rcases lt_trichotomy y 0 with hy | rfl | hy
    · rw [hnegative hy]
      exact neg_le_neg (roundedPositive_mono hp (neg_pos.mpr hy) (neg_le_neg h))
    · rw [hzero]
      linarith
    · rw [hpositive hy]
      have := roundedPositive_pos hp hy
      linarith
  · rw [hzero]
    rcases h.lt_or_eq with hy | rfl
    · rw [hpositive hy]
      exact (roundedPositive_pos hp hy).le
    · rw [hzero]
  · rw [hpositive hx, hpositive (lt_of_lt_of_le hx h)]
    exact roundedPositive_mono hp hx h

/-- The number moved to `p` digits in front of the point, rounded to an integer there and moved
back. -/
def nearest (p : Nat) (x : ℚ) : ℚ :=
  roundHalfEven (x * (10 : ℚ) ^ ((p : Int) - 1 - Int.log 10 |x|)) *
    (10 : ℚ) ^ (Int.log 10 |x| - ((p : Int) - 1))

theorem rounded_eq_nearest (hp : 0 < p) (x : ℚ) : rounded p x = nearest p x := by
  unfold rounded nearest
  rcases lt_trichotomy x 0 with hneg | rfl | hpos
  · rw [if_neg hneg.ne, if_pos hneg, roundedPositive_eq hp (abs_pos.mpr hneg.ne), abs_of_neg hneg,
      neg_one_mul, neg_mul x, roundHalfEven_neg, Int.cast_neg, neg_mul, neg_neg]
  · rw [if_pos rfl, zero_mul, ← Int.cast_zero, roundHalfEven_intCast, Int.cast_zero, zero_mul]
  · rw [if_neg hpos.ne', if_neg hpos.not_gt, roundedPositive_eq hp (abs_pos.mpr hpos.ne'),
      abs_of_pos hpos, one_mul]

end Significand

/-! ## Reading back what was written -/

theorem readInt_natText (n : Nat) : readInt (natText n) = n := by
  have hsign : ∀ sign : UInt8, isDigit sign = false → (natText n).take 1 ≠ [sign] := by
    intro sign hsign heq
    have hmem : sign ∈ (natText n).take 1 := by
      rw [heq]
      exact List.mem_singleton_self sign
    exact (natText_isDigits n).not_mem hsign (List.take_subset _ _ hmem)
  have hminus : (natText n).take 1 ≠ ascii "-" := hsign 45 (by decide)
  have hplus : (natText n).take 1 ≠ ascii "+" := hsign 43 (by decide)
  rw [readInt, if_neg hminus, if_neg hplus, digitsValue_natText]

theorem readInt_intText (n : Int) : readInt (intText n) = n := by
  rw [intText]
  split_ifs with hneg
  · show -(digitsValue (natText n.natAbs) : Int) = n
    rw [digitsValue_natText]
    omega
  · rw [List.nil_append, readInt_natText]
    omega

/-- A fraction is read as the digits it stands for, the dropped zeros included. -/
theorem readMantissa_fraction {whole digits : Bytes} (hw : IsDigits whole) :
    readMantissa (whole ++ fraction digits) =
      digitsValue (whole ++ digits) / 10 ^ digits.length := by
  have hpoint : point ∉ whole := hw.not_mem (by decide)
  rw [← digitsValue_stripTrailingZeros]
  by_cases hkept : stripTrailingZeros digits = []
  · rw [fraction, if_pos hkept, List.append_nil, readMantissa, before_of_not_mem hpoint,
      behind_of_not_mem hpoint, hkept]
  · rw [fraction, if_neg hkept]
    show readMantissa (whole ++ point :: stripTrailingZeros digits) = _
    rw [readMantissa, before_append hpoint, behind_append hpoint]

theorem exponentMark_not_mem_fraction {digits : Bytes} (h : IsDigits digits) :
    exponentMark ∉ fraction digits := by
  simp only [fraction]
  split_ifs
  · exact List.not_mem_nil
  · intro hmem
    rcases List.mem_append.mp hmem with hpoint | hkept
    · exact absurd hpoint (by decide)
    · exact h.not_mem (by decide) ((List.rdropWhile_prefix _ _).subset hkept)

theorem exponentMark_not_mem_mantissa {whole digits : Bytes} (hw : IsDigits whole)
    (h : IsDigits digits) : exponentMark ∉ whole ++ fraction digits := by
  intro hmem
  rcases List.mem_append.mp hmem with hleft | hright
  · exact hw.not_mem (by decide) hleft
  · exact exponentMark_not_mem_fraction h hright

theorem readInt_exponentText (exponent : Int) :
    ∃ rest, exponentText exponent = exponentMark :: rest ∧ readInt rest = exponent := by
  let digits := (if exponent.natAbs < 10 then ascii "0" else []) ++ natText exponent.natAbs
  have hvalue : digitsValue digits = exponent.natAbs := by
    simp only [digits]
    split_ifs
    · rw [digitsValue_append, digitsValue_natText, show digitsValue (ascii "0") = 0 from rfl]
      omega
    · rw [List.nil_append, digitsValue_natText]
  by_cases hneg : exponent < 0
  · refine ⟨ascii "-" ++ digits, ?_, ?_⟩
    · rw [exponentText, if_pos hneg, List.append_assoc]
      rfl
    · show -(digitsValue digits : Int) = exponent
      omega
  · refine ⟨ascii "+" ++ digits, ?_, ?_⟩
    · rw [exponentText, if_neg hneg, List.append_assoc]
      rfl
    · show (digitsValue digits : Int) = exponent
      omega

/-- Without an exponent a number is its mantissa. -/
theorem readUnsigned_mantissa {whole digits : Bytes} (hw : IsDigits whole) (h : IsDigits digits) :
    readUnsigned (whole ++ fraction digits) =
      digitsValue (whole ++ digits) / 10 ^ digits.length := by
  have hmark := exponentMark_not_mem_mantissa hw h
  rw [readUnsigned, before_of_not_mem hmark, behind_of_not_mem hmark, readMantissa_fraction hw]
  show _ * (10 : ℚ) ^ (0 : Int) = _
  rw [zpow_zero, mul_one]

theorem readUnsigned_fixedText {n p : Nat} {exponent : Int} (hlength : (natText n).length = p)
    (hexponent : exponent < p) :
    readUnsigned (fixedText (natText n) exponent) = n * (10 : ℚ) ^ (exponent - ((p : Int) - 1)) := by
  have hdigits := natText_isDigits n
  unfold fixedText
  split_ifs with hsign
  · -- The point is inside the digits, or behind all of them.
    have hwhole : IsDigits ((natText n).take (exponent.toNat + 1)) :=
      hdigits.of_subset (List.take_subset _ _)
    have hrest : IsDigits ((natText n).drop (exponent.toNat + 1)) :=
      hdigits.of_subset (List.drop_subset _ _)
    rw [readUnsigned_mantissa hwhole hrest, List.take_append_drop, digitsValue_natText,
      List.length_drop, hlength, div_eq_mul_inv, ← zpow_natCast, ← zpow_neg]
    congr 2
    omega
  · -- The point is in front of the digits, which zeros move to the right of it.
    have hzeros : IsDigits (List.replicate ((-exponent).toNat - 1) 48 ++ natText n) := by
      intro c hc
      rcases List.mem_append.mp hc with hzero | hdigit
      · rw [List.eq_of_mem_replicate hzero]
        decide
      · exact hdigits c hdigit
    have hwhole : IsDigits (ascii "0") := .of_all (by decide)
    have hvalue : digitsValue (ascii "0" ++ (List.replicate ((-exponent).toNat - 1) 48 ++ natText n)) =
        n := by
      rw [digitsValue_append, digitsValue_append, digitsValue_replicate_zero, digitsValue_natText,
        show digitsValue (ascii "0") = 0 from rfl]
      omega
    rw [readUnsigned_mantissa hwhole hzeros, hvalue, List.length_append,
      List.length_replicate, hlength, div_eq_mul_inv, ← zpow_natCast, ← zpow_neg]
    congr 2
    omega

theorem readUnsigned_scientificText {n p : Nat} (hp : 0 < p) (hlength : (natText n).length = p)
    (exponent : Int) :
    readUnsigned (scientificText (natText n) exponent) =
      n * (10 : ℚ) ^ (exponent - ((p : Int) - 1)) := by
  have hdigits := natText_isDigits n
  have hwhole : IsDigits ((natText n).take 1) := hdigits.of_subset (List.take_subset _ _)
  have hrest : IsDigits ((natText n).drop 1) := hdigits.of_subset (List.drop_subset _ _)
  have hmark := exponentMark_not_mem_mantissa hwhole hrest
  obtain ⟨field, hfield, hread⟩ := readInt_exponentText exponent
  rw [scientificText, hfield, readUnsigned, before_append hmark, behind_append hmark, hread,
    readMantissa_fraction hwhole, List.take_append_drop, digitsValue_natText, List.length_drop,
    hlength, div_eq_mul_inv, ← zpow_natCast, ← zpow_neg, mul_assoc, ← zpow_add₀ (by norm_num)]
  congr 2
  omega

theorem readUnsigned_positiveText {p : Nat} (hp : 0 < p) {x : ℚ} (hx : 0 < x) :
    readUnsigned (positiveText p x) = roundedPositive p x := by
  obtain ⟨hlow, hhigh⟩ := significand_bounds hp hx
  have hlength := length_natText hp hlow hhigh
  simp only [positiveText, roundedPositive]
  split_ifs with hfixed
  · exact readUnsigned_fixedText hlength hfixed.2
  · exact readUnsigned_scientificText hp hlength _

/-- A positive number has no sign in front. -/
theorem take_one_positiveText {p : Nat} (hp : 0 < p) {x : ℚ} (hx : 0 < x) :
    (positiveText p x).take 1 ≠ ascii "-" := by
  obtain ⟨hlow, hhigh⟩ := significand_bounds hp hx
  have hlength := length_natText hp hlow hhigh
  have hdigits := natText_isDigits (significand p x).1
  -- All of the formats begin with a digit.
  obtain ⟨c, rest, hc, hdigit⟩ : ∃ c rest, positiveText p x = c :: rest ∧ isDigit c = true := by
    obtain ⟨c, digits, hc⟩ : ∃ c digits, natText (significand p x).1 = c :: digits := by
      cases h : natText (significand p x).1 with
      | nil => rw [h] at hlength; simp at hlength; omega
      | cons c digits => exact ⟨c, digits, rfl⟩
    have hfirst : isDigit c = true := hdigits c (by rw [hc]; exact List.mem_cons_self)
    simp only [positiveText, fixedText, scientificText, hc]
    split_ifs
    · exact ⟨_, _, rfl, hfirst⟩
    · exact ⟨_, _, rfl, by decide⟩
    · exact ⟨_, _, rfl, hfirst⟩
  rw [hc]
  intro heq
  obtain rfl : c = 45 := (List.cons.inj heq).1
  exact absurd hdigit (by decide)

/-- Reading the general format gives the number rounded to the precision. -/
theorem readDecimal_generalText {p : Nat} (hp : 0 < p) (x : ℚ) :
    readDecimal (generalText p x) = rounded p x := by
  unfold generalText rounded
  split_ifs with hzero hneg
  · decide +kernel
  · show -readUnsigned (positiveText p |x|) = -1 * roundedPositive p |x|
    rw [readUnsigned_positiveText hp (abs_pos.mpr hzero), neg_one_mul]
  · rw [List.nil_append, readDecimal, if_neg (take_one_positiveText hp (abs_pos.mpr hzero)),
      readUnsigned_positiveText hp (abs_pos.mpr hzero), one_mul]

/-! ## Numbers with one text -/

section Texts

variable {p : Nat} (hp : 0 < p) {x y : ℚ}

include hp

theorem rounded_eq_zero_iff (x : ℚ) : rounded p x = 0 ↔ x = 0 := by
  unfold rounded
  constructor
  · intro h
    by_contra hx
    have hpos := roundedPositive_pos hp (abs_pos.mpr hx)
    rw [if_neg hx] at h
    split_ifs at h <;> linarith
  · intro hx
    rw [if_pos hx]

theorem rounded_neg_iff (x : ℚ) : rounded p x < 0 ↔ x < 0 := by
  unfold rounded
  by_cases hx : x = 0
  · rw [if_pos hx, hx]
  · have hpos := roundedPositive_pos hp (abs_pos.mpr hx)
    rw [if_neg hx]
    split_ifs with hneg
    · exact iff_of_true (by linarith) hneg
    · exact iff_of_false (by linarith) hneg

theorem abs_rounded (hx : x ≠ 0) : |rounded p x| = roundedPositive p |x| := by
  have hpos := roundedPositive_pos hp (abs_pos.mpr hx)
  unfold rounded
  rw [if_neg hx]
  split_ifs
  · rw [neg_one_mul, abs_neg, abs_of_pos hpos]
  · rw [one_mul, abs_of_pos hpos]

/-- The exponent is the magnitude of the rounded number. -/
theorem exponent_le_of_roundedPositive_le (hx : 0 < x) (hy : 0 < y)
    (h : roundedPositive p x ≤ roundedPositive p y) :
    (significand p x).2 ≤ (significand p y).2 := by
  obtain ⟨hlow, -⟩ := significand_bounds hp hx
  obtain ⟨-, hhigh⟩ := significand_bounds hp hy
  by_contra hlt
  have hpow : ((10 ^ p : Nat) : ℚ) = ((10 ^ (p - 1) : Nat) : ℚ) * 10 := by
    rw [← Nat.cast_ofNat (R := ℚ) (n := 10), ← Nat.cast_mul, ← pow_succ, Nat.sub_add_cancel hp]
  -- A larger exponent is at least a factor of ten, more than the digits can make up for.
  have hless : roundedPositive p y < roundedPositive p x := by
    calc roundedPositive p y
        < (10 ^ p : Nat) * (10 : ℚ) ^ ((significand p y).2 - ((p : Int) - 1)) :=
          mul_lt_mul_of_pos_right (by exact_mod_cast hhigh) (ten_zpow_pos _)
      _ = (10 ^ (p - 1) : Nat) * (10 : ℚ) ^ ((significand p y).2 + 1 - ((p : Int) - 1)) := by
          rw [hpow, mul_assoc, ← zpow_one_add₀ (by norm_num)]
          congr 2
          omega
      _ ≤ (10 ^ (p - 1) : Nat) * (10 : ℚ) ^ ((significand p x).2 - ((p : Int) - 1)) :=
          mul_le_mul_of_nonneg_left (zpow_le_zpow_right₀ (by norm_num) (by omega))
            (Nat.cast_nonneg _)
      _ ≤ roundedPositive p x :=
          mul_le_mul_of_nonneg_right (by exact_mod_cast hlow) (ten_zpow_pos _).le
  linarith

theorem significand_eq_of_roundedPositive_eq (hx : 0 < x) (hy : 0 < y)
    (h : roundedPositive p x = roundedPositive p y) : significand p x = significand p y := by
  have hexponent : (significand p x).2 = (significand p y).2 :=
    le_antisymm (exponent_le_of_roundedPositive_le hp hx hy h.le)
      (exponent_le_of_roundedPositive_le hp hy hx h.ge)
  unfold roundedPositive at h
  rw [hexponent] at h
  have hdigits := mul_right_cancel₀ (ten_zpow_pos _).ne' h
  exact Prod.ext (by exact_mod_cast hdigits) hexponent

/-- A rounded number has its digits already. -/
theorem roundedPositive_roundedPositive (hx : 0 < x) :
    roundedPositive p (roundedPositive p x) = roundedPositive p x := by
  obtain ⟨hlow, hhigh⟩ := significand_bounds hp hx
  have hpos := roundedPositive_pos hp hx
  set n := (significand p x).1 with hn
  set e := (significand p x).2 with he
  have hvalue : roundedPositive p x = n * (10 : ℚ) ^ (e - ((p : Int) - 1)) := rfl
  have hten := ten_zpow_pos (e - ((p : Int) - 1))
  -- The exponent is the magnitude.
  have hlog : Int.log 10 (roundedPositive p x) = e := by
    apply le_antisymm
    · refine Int.lt_add_one_iff.mp ((Int.lt_zpow_iff_log_lt (by decide) hpos).mp ?_)
      calc roundedPositive p x
          < ((10 ^ p : Nat) : ℚ) * (10 : ℚ) ^ (e - ((p : Int) - 1)) :=
            mul_lt_mul_of_pos_right (by exact_mod_cast hhigh) hten
        _ = ((10 : Nat) : ℚ) ^ (e + 1) := by
            rw [Nat.cast_pow, ← zpow_natCast, Nat.cast_ofNat, ← zpow_add₀ (by norm_num)]
            congr 1
            omega
    · refine (Int.zpow_le_iff_le_log (by decide) hpos).mp ?_
      calc ((10 : Nat) : ℚ) ^ e
          = ((10 ^ (p - 1) : Nat) : ℚ) * (10 : ℚ) ^ (e - ((p : Int) - 1)) := by
            rw [Nat.cast_pow, ← zpow_natCast, Nat.cast_ofNat, ← zpow_add₀ (by norm_num)]
            congr 1
            omega
        _ ≤ roundedPositive p x := mul_le_mul_of_nonneg_right (by exact_mod_cast hlow) hten.le
  have hscaled : roundedPositive p x * (10 : ℚ) ^ ((p : Int) - 1 - e) = ((n : Int) : ℚ) := by
    rw [hvalue, mul_assoc, ← zpow_add₀ (by norm_num)]
    simp
  rw [roundedPositive_eq hp hpos, hlog, hscaled, roundHalfEven_intCast, Int.cast_natCast, ← hvalue]

theorem rounded_rounded (x : ℚ) : rounded p (rounded p x) = rounded p x := by
  by_cases hx : x = 0
  · rw [hx, show rounded p 0 = 0 from if_pos rfl, show rounded p 0 = 0 from if_pos rfl]
  · have hne : rounded p x ≠ 0 := fun h => hx ((rounded_eq_zero_iff hp x).mp h)
    conv_lhs => rw [rounded, if_neg hne, abs_rounded hp hx,
      roundedPositive_roundedPositive hp (abs_pos.mpr hx)]
    conv_rhs => rw [rounded, if_neg hx]
    simp only [rounded_neg_iff hp]

/-- Two numbers have the same text exactly if they are rounded to the same number. -/
theorem generalText_eq_iff : generalText p x = generalText p y ↔ rounded p x = rounded p y := by
  constructor
  · intro h
    rw [← readDecimal_generalText hp, ← readDecimal_generalText hp, h]
  · intro h
    have hzero : x = 0 ↔ y = 0 := by
      rw [← rounded_eq_zero_iff hp, h, rounded_eq_zero_iff hp]
    have hneg : x < 0 ↔ y < 0 := by rw [← rounded_neg_iff hp, h, rounded_neg_iff hp]
    unfold generalText
    by_cases hx : x = 0
    · rw [if_pos hx, if_pos (hzero.mp hx)]
    · have hy : y ≠ 0 := fun hy => hx (hzero.mpr hy)
      have hdigits : significand p |x| = significand p |y| := by
        apply significand_eq_of_roundedPositive_eq hp (abs_pos.mpr hx) (abs_pos.mpr hy)
        rw [← abs_rounded hp hx, h, abs_rounded hp hy]
      rw [if_neg hx, if_neg hy, positiveText, positiveText, hdigits]
      simp only [hneg]

end Texts

end Decimal
