/-
# PrometheusCpp.Lib.BinarySearch -- `std::lower_bound` over a predicate

The algorithm halves a range `[first, first + len)`, as the C++ standard library does, and so is
defined on every list; on a list partitioned by the predicate it finds the partition point. What it
returns on other lists is whatever the halving visits.
-/
import Mathlib.Data.List.Basic
import Mathlib.Data.List.TakeDrop

namespace BinarySearch

variable {α : Type*}

/-- One round looks at the middle of the `len` elements from `first` on and keeps one half. Each
round shortens the range, so `len` rounds are enough. -/
def lowerBoundLoop (p : α → Bool) (xs : List α) : (rounds first len : Nat) → Nat
  | 0, first, _ => first
  | rounds + 1, first, len =>
    if len = 0 then first
    else
      let half := len / 2
      let middle := first + half
      if xs[middle]?.any p then lowerBoundLoop p xs rounds (middle + 1) (len - half - 1)
      else lowerBoundLoop p xs rounds first half

def lowerBound (p : α → Bool) (xs : List α) : Nat := lowerBoundLoop p xs xs.length 0 xs.length

/-- Everything the predicate accepts comes before everything it rejects. -/
def Partitioned (p : α → Bool) (xs : List α) : Prop := xs.Pairwise fun a b => p b → p a

/-- The index is the end of the accepted prefix. -/
structure IsPartitionPoint (p : α → Bool) (xs : List α) (i : Nat) : Prop where
  le_length : i ≤ xs.length
  before : ∀ x ∈ xs.take i, p x = true
  after : ∀ x ∈ xs.drop i, p x = false

theorem lowerBoundLoop_isPartitionPoint {p : α → Bool} {xs : List α} (hp : Partitioned p xs) :
    ∀ (rounds first len : Nat), len ≤ rounds → first + len ≤ xs.length →
      (∀ x ∈ xs.take first, p x = true) → (∀ x ∈ xs.drop (first + len), p x = false) →
      IsPartitionPoint p xs (lowerBoundLoop p xs rounds first len) := by
  intro rounds
  induction rounds with
  | zero =>
      intro first len hlen hbound hbefore hafter
      obtain rfl : len = 0 := by omega
      exact ⟨by simpa [lowerBoundLoop] using hbound, hbefore, by simpa [lowerBoundLoop] using hafter⟩
  | succ rounds ih =>
      intro first len hlen hbound hbefore hafter
      rw [lowerBoundLoop]
      split
      · rename_i hzero
        exact ⟨by omega, hbefore, by simpa [hzero] using hafter⟩
      · rename_i hpos
        have hmiddle : first + len / 2 < xs.length := by omega
        simp only [List.getElem?_eq_getElem hmiddle, Option.any_some]
        split
        · rename_i haccept
          -- The middle is accepted, so everything up to it is.
          refine ih _ _ (by omega) (by omega) ?_ ?_
          · intro x hx
            obtain ⟨j, hj, rfl⟩ := List.mem_take_iff_getElem.mp hx
            rcases Nat.lt_or_ge j (first + len / 2) with hlt | hge
            · exact List.pairwise_iff_getElem.mp hp j _ (by omega) hmiddle hlt haccept
            · have : j = first + len / 2 := by omega
              subst this
              exact haccept
          · intro x hx
            refine hafter x ?_
            have : first + len / 2 + 1 + (len - len / 2 - 1) = first + len := by omega
            rwa [this] at hx
        · rename_i hreject
          -- The middle is rejected, so everything from it on is.
          refine ih _ _ (by omega) (by omega) hbefore ?_
          intro x hx
          obtain ⟨j, hj, rfl⟩ := List.mem_drop_iff_getElem.mp hx
          rcases Nat.eq_zero_or_pos j with rfl | hjpos
          · simpa using hreject
          · by_contra haccept
            have hlater : first + len / 2 < first + len / 2 + j := by omega
            exact hreject (List.pairwise_iff_getElem.mp hp _ _ hmiddle (by omega) hlater
              (by simpa using haccept))

theorem lowerBound_isPartitionPoint {p : α → Bool} {xs : List α} (hp : Partitioned p xs) :
    IsPartitionPoint p xs (lowerBound p xs) :=
  lowerBoundLoop_isPartitionPoint hp _ _ _ (Nat.le_refl _) (by omega) (by simp) (by simp)

theorem IsPartitionPoint.lt_iff {p : α → Bool} {xs : List α} {i : Nat}
    (h : IsPartitionPoint p xs i) {j : Nat} (hj : j < xs.length) : j < i ↔ p xs[j] = true := by
  constructor
  · intro hlt
    exact h.before _ (List.mem_take_iff_getElem.mpr ⟨j, by omega, rfl⟩)
  · intro haccept
    by_contra hge
    have hmem : xs[j] ∈ xs.drop i :=
      List.mem_drop_iff_getElem.mpr ⟨j - i, by omega, by congr 1; omega⟩
    rw [h.after _ hmem] at haccept
    exact Bool.noConfusion haccept

end BinarySearch
