/-
# PrometheusCpp.Lib.CheckedInt -- computations in a bounded integer type

A computation that is written for unbounded integers can be followed in a bounded type: every
expression of the type then has a value only within its bounds. Where such a computation comes to an
end, its result is that of the unbounded one (`Agrees`), so all that is to be shown about it is that
no expression leaves the bounds.
-/
import Mathlib.Data.Option.Basic

namespace CheckedInt

/-- The value of an expression, if it is within the bounds. -/
def within (lo hi x : Int) : Option Int := if lo ≤ x ∧ x ≤ hi then some x else none

theorem within_eq_some {lo hi x : Int} (hlo : lo ≤ x) (hhi : x ≤ hi) :
    within lo hi x = some x := if_pos ⟨hlo, hhi⟩

theorem within_eq_none {lo hi x : Int} (hhi : hi < x) : within lo hi x = none :=
  if_neg fun h => by omega

universe u

variable {α β : Type u}

/-- The computation has no other result. -/
def Agrees (x : Option α) (a : α) : Prop := ∀ b, x = some b → b = a

theorem agrees_some (a : α) : Agrees (some a) a := fun _ h => (Option.some.inj h).symm

theorem agrees_none (a : α) : Agrees none a := fun _ h => nomatch h

theorem agrees_within (lo hi x : Int) : Agrees (within lo hi x) x := by
  unfold within
  split
  · exact agrees_some x
  · exact agrees_none x

theorem Agrees.bind {x : Option α} {a : α} {f : α → Option β} {b : β} (hx : Agrees x a)
    (hf : Agrees (f a) b) : Agrees (x >>= f) b := by
  intro c hc
  obtain ⟨a', ha', hc⟩ := Option.bind_eq_some_iff.mp hc
  obtain rfl := hx a' ha'
  exact hf c hc

theorem Agrees.ite {p : Prop} [Decidable p] {x y : Option α} {a b : α} (hx : Agrees x a)
    (hy : Agrees y b) : Agrees (if p then x else y) (if p then a else b) := by
  split
  · exact hx
  · exact hy

/-- A fold agrees when each of its steps does. -/
theorem Agrees.foldlM {step : β → α → Option β} {f : β → α → β}
    (hstep : ∀ b a, Agrees (step b a) (f b a)) (xs : List α) :
    ∀ b, Agrees (xs.foldlM step b) (xs.foldl f b) := by
  induction xs with
  | nil => exact fun b => agrees_some b
  | cons x xs ih => exact fun b => (hstep b x).bind (ih _)

end CheckedInt
