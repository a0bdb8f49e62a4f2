/-
# PrometheusCpp.Core.NumberTexts -- which doubles have texts of their own

`Serialize` sets a precision of sixteen significant digits, one less than it takes to tell all
doubles apart. The text of a double is that of the nearest decimal with as many digits, so two
doubles share a text exactly when they share that decimal (`writeValue_ne_iff`).
-/
import PrometheusCpp.Core.SampleReader

namespace PrometheusCpp

open ByteString

namespace TextSerializer

/-- The finite values of an IEEE double. -/
def IsFiniteDouble (x : ℚ) : Prop :=
  ∃ m e : Int, |m| < 2 ^ 53 ∧ -1074 ≤ e ∧ e ≤ 971 ∧ x = m * (2 : ℚ) ^ e

/-- The texts of two finite values differ if and only if the decimals with sixteen significant digits
that are nearest to them do. -/
theorem writeValue_ne_iff (x y : ℚ) :
    render (writeValue (Double.ofRat x)) ≠ render (writeValue (Double.ofRat y)) ↔
      Decimal.nearest 16 x ≠ Decimal.nearest 16 y := by
  have hprecision : 0 < precision := by decide
  have htext : ∀ z, render (writeValue (Double.ofRat z)) = Decimal.generalText precision z :=
    fun z => render_writeDouble (Double.ofRat z)
  rw [htext, htext, ne_eq, Decimal.generalText_eq_iff hprecision,
    Decimal.rounded_eq_nearest hprecision, Decimal.rounded_eq_nearest hprecision]
  exact Iff.rfl

/-- One and the next double are both written as `1`. -/
theorem writeValue_not_always_ne :
    ¬ ∀ x y : ℚ, IsFiniteDouble x → IsFiniteDouble y → x ≠ y →
      render (writeValue (Double.ofRat x)) ≠ render (writeValue (Double.ofRat y)) := by
  intro h
  have hone : IsFiniteDouble 1 := ⟨1, 0, by norm_num, by norm_num, by norm_num, by norm_num⟩
  have hnext : IsFiniteDouble (1 + 1 / 2 ^ 52) :=
    ⟨2 ^ 52 + 1, -52, by norm_num, by norm_num, by norm_num, by norm_num⟩
  have htexts : Decimal.generalText 16 1 = Decimal.generalText 16 (1 + 1 / 2 ^ 52) := by
    decide +kernel
  apply h 1 (1 + 1 / 2 ^ 52) hone hnext (by norm_num)
  rw [render_writeDouble, render_writeDouble]
  exact htexts

end TextSerializer

end PrometheusCpp
