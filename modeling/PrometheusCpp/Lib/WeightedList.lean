/-
# PrometheusCpp.Lib.WeightedList -- lists whose entries have a place on a scale

The entries of a list have weights. What is said about an entry may depend on the weight in front of
it and on the weight behind it, which a list that is put together from parts shares out between its
parts (`everywhere_append`).
-/
import Mathlib.Algebra.BigOperators.Group.List.Basic
import Mathlib.Tactic.Common

namespace WeightedList

variable {α M : Type*} [AddCommMonoid M] (weight : α → M)

def total (xs : List α) : M := (xs.map weight).sum

@[simp] theorem total_nil : total weight [] = 0 := rfl

@[simp] theorem total_cons (x : α) (xs : List α) :
    total weight (x :: xs) = weight x + total weight xs := by
  simp [total]

@[simp] theorem total_append (xs ys : List α) :
    total weight (xs ++ ys) = total weight xs + total weight ys := by
  simp [total]

/-- Every entry stands as `P` wants it between the weight in front of it and the weight behind it,
of which `before` and `after` are outside the list. -/
def Everywhere (P : M → α → M → Prop) : (before : M) → List α → (after : M) → Prop
  | _, [], _ => True
  | before, x :: xs, after =>
    P before x (total weight xs + after) ∧ Everywhere P (before + weight x) xs after

instance decidableEverywhere (P : M → α → M → Prop) [∀ before x after, Decidable (P before x after)] :
    ∀ before xs after, Decidable (Everywhere weight P before xs after)
  | _, [], _ => isTrue trivial
  | before, x :: xs, after =>
    have := decidableEverywhere P (before + weight x) xs after
    inferInstanceAs (Decidable (_ ∧ _))

variable {weight} {P Q : M → α → M → Prop}

@[simp] theorem everywhere_nil (before after : M) : Everywhere weight P before [] after := trivial

@[simp] theorem everywhere_cons (before after : M) (x : α) (xs : List α) :
    Everywhere weight P before (x :: xs) after ↔
      P before x (total weight xs + after) ∧ Everywhere weight P (before + weight x) xs after :=
  Iff.rfl

theorem everywhere_append {xs ys : List α} : ∀ {before after : M},
    Everywhere weight P before (xs ++ ys) after ↔
      Everywhere weight P before xs (total weight ys + after) ∧
        Everywhere weight P (before + total weight xs) ys after := by
  induction xs with
  | nil => intro before after; simp
  | cons x xs ih =>
      intro before after
      rw [List.cons_append, everywhere_cons, everywhere_cons, ih, total_append, total_cons,
        add_assoc, add_assoc, and_assoc]

/-- A list that gets another place on the scale: whatever is asked of an entry there has to follow
from what was asked of it. -/
theorem Everywhere.shift {xs : List α} : ∀ {before after before' after' : M},
    Everywhere weight P before xs after →
    (∀ x ∈ xs, ∀ b a, P (before + b) x (a + after) → Q (before' + b) x (a + after')) →
    Everywhere weight Q before' xs after' := by
  induction xs with
  | nil => intro _ _ _ _ _ _; trivial
  | cons x xs ih =>
      intro before after before' after' h hstep
      refine ⟨?_, ih h.2 fun y hy b a hP => ?_⟩
      · have hhead := hstep x List.mem_cons_self 0 (total weight xs)
        rw [add_zero, add_zero] at hhead
        exact hhead h.1
      · rw [add_assoc]
        exact hstep y (List.mem_cons_of_mem x hy) (weight x + b) a (by rwa [← add_assoc])

theorem Everywhere.imp {xs : List α} {before after : M} (h : Everywhere weight P before xs after)
    (hstep : ∀ x ∈ xs, ∀ b a, P b x a → Q b x a) : Everywhere weight Q before xs after :=
  h.shift fun x hx b a => hstep x hx (before + b) (a + after)

/-- Said for the entry at each index. -/
theorem everywhere_iff_getElem {xs : List α} : ∀ {before after : M},
    Everywhere weight P before xs after ↔ ∀ i, (h : i < xs.length) →
      P (before + total weight (xs.take i)) xs[i] (total weight (xs.drop (i + 1)) + after) := by
  induction xs with
  | nil => intro before after; simp
  | cons x xs ih =>
      intro before after
      rw [everywhere_cons, ih]
      constructor
      · rintro ⟨hhead, htail⟩ i hi
        cases i with
        | zero => simpa using hhead
        | succ i =>
            have hi' : i < xs.length := Nat.lt_of_succ_lt_succ hi
            simpa [add_assoc] using htail i hi'
      · intro h
        refine ⟨by simpa using h 0 (Nat.succ_pos _), fun i hi => ?_⟩
        simpa [add_assoc] using h (i + 1) (Nat.succ_lt_succ hi)

end WeightedList
