/-
# PrometheusCpp.Lib.ExactDouble -- doubles under exact arithmetic

A `Double` has the special values of an IEEE double -- NaN and the two infinities -- and its finite
values are rationals, so sums, products and quotients of finite values are exact and never round or
overflow. Zero has one sign. Comparisons follow IEEE: every comparison with NaN is false. The
non-NaN values form the linear order `Number`, which is what sorting and searching need.
-/
import Mathlib.Algebra.Order.Field.Rat
import Mathlib.Algebra.Order.Floor.Ring
import Mathlib.Data.Rat.Floor

/-- A double that is not NaN. -/
inductive Number where
  | negInf
  | fin (x : ℚ)
  | posInf
  deriving DecidableEq

namespace Number

def leb : Number → Number → Bool
  | negInf, _ => true
  | _, posInf => true
  | fin x, fin y => decide (x ≤ y)
  | _, _ => false

instance : LE Number := ⟨fun a b => a.leb b = true⟩

theorem le_def (a b : Number) : a ≤ b ↔ a.leb b = true := Iff.rfl

theorem le_total' (a b : Number) : a ≤ b ∨ b ≤ a := by
  cases a <;> cases b <;> simp [le_def, leb, le_total]

theorem le_trans' {a b c : Number} (hab : a ≤ b) (hbc : b ≤ c) : a ≤ c := by
  cases a <;> cases b <;> cases c <;> simp_all [le_def, leb]
  exact le_trans hab hbc

theorem le_antisymm' {a b : Number} (hab : a ≤ b) (hba : b ≤ a) : a = b := by
  cases a <;> cases b <;> simp_all [le_def, leb]
  exact le_antisymm hab hba

instance : LinearOrder Number where
  le_refl a := by cases a <;> simp [le_def, leb]
  le_trans _ _ _ := le_trans'
  le_antisymm _ _ := le_antisymm'
  le_total := le_total'
  toDecidableEq := inferInstance
  toDecidableLE := fun a b => inferInstanceAs (Decidable (a.leb b = true))

@[simp] theorem fin_le_fin {x y : ℚ} : fin x ≤ fin y ↔ x ≤ y := by simp [le_def, leb]

@[simp] theorem fin_lt_fin {x y : ℚ} : fin x < fin y ↔ x < y := by
  rw [lt_iff_not_ge, lt_iff_not_ge, fin_le_fin]

@[simp] theorem le_posInf (a : Number) : a ≤ posInf := by cases a <;> simp [le_def, leb]

@[simp] theorem negInf_le (a : Number) : negInf ≤ a := by cases a <;> simp [le_def, leb]

end Number

inductive Double where
  | nan
  | num (x : Number)
  deriving DecidableEq

namespace Double

open Number

/-- A finite value. -/
def ofRat (x : ℚ) : Double := num (fin x)

def posInf : Double := num Number.posInf

def negInf : Double := num Number.negInf

instance : OfNat Double n := ⟨ofRat (OfNat.ofNat n : ℕ)⟩

instance : NatCast Double := ⟨fun n => ofRat n⟩

instance : IntCast Double := ⟨fun n => ofRat n⟩

/-! ## IEEE comparisons -/

def lt : Double → Double → Bool
  | num a, num b => decide (a < b)
  | _, _ => false

def le : Double → Double → Bool
  | num a, num b => decide (a ≤ b)
  | _, _ => false

@[simp] theorem lt_num (a b : Number) : lt (num a) (num b) = decide (a < b) := rfl

@[simp] theorem le_num (a b : Number) : le (num a) (num b) = decide (a ≤ b) := rfl

@[simp] theorem lt_ofRat (x y : ℚ) : lt (ofRat x) (ofRat y) = decide (x < y) := by
  simp [ofRat]

@[simp] theorem le_ofRat (x y : ℚ) : le (ofRat x) (ofRat y) = decide (x ≤ y) := by
  simp [ofRat]

/-! ## Arithmetic -/

/-- The infinity with the sign of `x`, and NaN for zero. -/
def infOfSign (x : ℚ) : Double :=
  if 0 < x then posInf else if x < 0 then negInf else nan

protected def neg : Double → Double
  | nan => nan
  | num Number.negInf => posInf
  | num (fin x) => ofRat (-x)
  | num Number.posInf => negInf

protected def add : Double → Double → Double
  | num (fin x), num (fin y) => ofRat (x + y)
  | num (fin _), num b => num b
  | num a, num (fin _) => num a
  | num a, num b => if a = b then num a else nan
  | _, _ => nan

/-- The sign of a number, as a rational. -/
def sign : Number → ℚ
  | Number.negInf => -1
  | fin x => if 0 < x then 1 else if x < 0 then -1 else 0
  | Number.posInf => 1

protected def mul : Double → Double → Double
  | num (fin x), num (fin y) => ofRat (x * y)
  | num a, num b => infOfSign (sign a * sign b)
  | _, _ => nan

protected def div : Double → Double → Double
  | num (fin x), num (fin y) => if y = 0 then infOfSign x else ofRat (x / y)
  | num (fin _), num _ => ofRat 0
  | num a, num (fin y) => infOfSign (sign a * if y < 0 then -1 else 1)
  | _, _ => nan

instance : Neg Double := ⟨Double.neg⟩
instance : Add Double := ⟨Double.add⟩
instance : Sub Double := ⟨fun a b => Double.add a (Double.neg b)⟩
instance : Mul Double := ⟨Double.mul⟩
instance : Div Double := ⟨Double.div⟩

@[simp] theorem ofRat_add (x y : ℚ) : ofRat x + ofRat y = ofRat (x + y) := rfl

@[simp] theorem ofRat_sub (x y : ℚ) : ofRat x - ofRat y = ofRat (x - y) := by
  show ofRat (x + -y) = ofRat (x - y)
  rw [sub_eq_add_neg]

@[simp] theorem ofRat_mul (x y : ℚ) : ofRat x * ofRat y = ofRat (x * y) := rfl

theorem ofRat_div (x : ℚ) {y : ℚ} (hy : y ≠ 0) : ofRat x / ofRat y = ofRat (x / y) := by
  show (if y = 0 then infOfSign x else ofRat (x / y)) = _
  rw [if_neg hy]

@[simp] theorem natCast_eq (n : ℕ) : (n : Double) = ofRat n := rfl

@[simp] theorem intCast_eq (n : ℤ) : (n : Double) = ofRat n := rfl

@[simp] theorem ofNat_eq (n : ℕ) [n.AtLeastTwo] :
    (OfNat.ofNat n : Double) = ofRat (OfNat.ofNat n : ℕ) := rfl

@[simp] theorem zero_eq : (0 : Double) = ofRat 0 := rfl

@[simp] theorem one_eq : (1 : Double) = ofRat 1 := rfl

/-! ## Conversion to integers

Converting NaN, an infinity or a value out of the target's range is undefined in C++; these
functions return zero there. -/

/-- Truncation toward zero, as a conversion to a signed integer does. -/
def toInt : Double → Int
  | num (fin x) => if 0 ≤ x then ⌊x⌋ else ⌈x⌉
  | _ => 0

/-- Truncation of a nonnegative value, as a conversion to an unsigned integer does. -/
def toNat (d : Double) : Nat := d.toInt.toNat

protected def floor : Double → Double
  | num (fin x) => ofRat ⌊x⌋
  | d => d

@[simp] theorem toInt_ofRat_of_nonneg {x : ℚ} (h : 0 ≤ x) : toInt (ofRat x) = ⌊x⌋ := by
  simp [toInt, ofRat, h]

@[simp] theorem floor_ofRat (x : ℚ) : (ofRat x).floor = ofRat ⌊x⌋ := rfl

@[simp] theorem toInt_ofRat_intCast (n : ℤ) : toInt (ofRat n) = n := by
  simp [toInt, ofRat]

@[simp] theorem toNat_ofRat_natCast (n : ℕ) : toNat (ofRat n) = n := by
  simp [toNat]

/-- Adding whole numbers as doubles and converting back is adding them. -/
theorem toNat_natCast_add (m n : ℕ) : ((m : Double) + (n : Double)).toNat = m + n := by
  rw [natCast_eq, natCast_eq, ofRat_add, ← Nat.cast_add, toNat_ofRat_natCast]

end Double
