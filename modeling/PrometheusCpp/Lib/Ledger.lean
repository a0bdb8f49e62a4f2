/-
# PrometheusCpp.Lib.Ledger -- amounts that parties have still to book

Parties take steps in any order. What comes to one of them it books later, in steps of its own. At
any time what has come is what has been booked and what is left to the parties (`Owes.update`), so
when nobody has anything left, all of it has been booked, and nothing twice (`Owes.settled`).
-/
import Mathlib.Algebra.BigOperators.Group.Finset.Basic
import Mathlib.Algebra.Order.Ring.Nat

namespace Ledger

variable {ι σ ε : Type*}

/-- The sum over all parties, of which only some have more than nothing. -/
def Total (c : ι → ℕ) (n : ℕ) : Prop :=
  ∃ busy : Finset ι, (∀ t ∉ busy, c t = 0) ∧ ∑ t ∈ busy, c t = n

theorem Total.none : Total (fun _ : ι => 0) 0 := ⟨∅, fun _ _ => rfl, rfl⟩

theorem Total.eq_zero {c : ι → ℕ} {n : ℕ} (h : Total c n) (hnone : ∀ t, c t = 0) : n = 0 := by
  obtain ⟨busy, -, rfl⟩ := h
  exact Finset.sum_eq_zero fun t _ => hnone t

/-- One party has something else. -/
theorem Total.move [DecidableEq ι] {c d : ι → ℕ} {n : ℕ} (h : Total c n) {t : ι}
    (hother : ∀ u, u ≠ t → d u = c u) : ∃ n', Total d n' ∧ n' + c t = n + d t := by
  obtain ⟨busy, hrest, rfl⟩ := h
  have hnone : ∀ u ∉ insert t busy, d u = 0 := fun u hu => by
    rw [Finset.mem_insert, not_or] at hu
    rw [hother u hu.1, hrest u hu.2]
  have hsame : ∑ u ∈ (insert t busy).erase t, d u = ∑ u ∈ (insert t busy).erase t, c u :=
    Finset.sum_congr rfl fun u hu => hother u (Finset.ne_of_mem_erase hu)
  refine ⟨∑ u ∈ insert t busy, d u, ⟨insert t busy, hnone, rfl⟩, ?_⟩
  rw [← Finset.sum_insert_of_eq_zero_if_notMem (hrest t),
    ← Finset.add_sum_erase _ d (Finset.mem_insert_self t busy),
    ← Finset.add_sum_erase _ c (Finset.mem_insert_self t busy), hsame]
  omega

/-! ## Amounts of events -/

/-- What adds up over the events. -/
def Adds (amount : List ε → ℕ) : Prop := ∀ es es', amount (es ++ es') = amount es + amount es'

theorem adds_sum {amount? : ε → Option ℕ} : Adds fun es => (es.filterMap amount?).sum :=
  fun es es' => by
    show ((es ++ es').filterMap amount?).sum = _
    rw [List.filterMap_append, List.sum_append]

theorem adds_length {α : Type*} {value? : ε → Option α} :
    Adds fun es => (es.filterMap value?).length := fun es es' => by
  show ((es ++ es').filterMap value?).length = _
  rw [List.filterMap_append, List.length_append]

/-! ## The ledger -/

/-- What has come is what has been booked and what is left to the parties. -/
def Owes (come booked : List ε → ℕ) (left : σ → ℕ) (es : List ε) (stage : ι → σ) : Prop :=
  ∃ n, Total (fun t => left (stage t)) n ∧ come es = booked es + n

variable {come booked : List ε → ℕ} {left : σ → ℕ} {es : List ε} {stage : ι → σ}

/-- A step of one party that balances keeps the ledger balanced. -/
theorem Owes.update [DecidableEq ι] (h : Owes come booked left es stage) (hcome : Adds come)
    (hbooked : Adds booked) {new : List ε} {t : ι} {before next : σ} (here : stage t = before)
    (hbalanced : come new + left before = booked new + left next) :
    Owes come booked left (es ++ new) (Function.update stage t next) := by
  obtain ⟨n, htotal, hes⟩ := h
  have hother : ∀ u, u ≠ t → left (Function.update stage t next u) = left (stage u) :=
    fun u hu => by rw [Function.update_of_ne hu]
  obtain ⟨n', htotal', hn⟩ := htotal.move hother
  rw [Function.update_self, here] at hn
  refine ⟨n', htotal', ?_⟩
  rw [hcome, hbooked]
  omega

theorem Owes.booked_le (h : Owes come booked left es stage) : booked es ≤ come es := by
  obtain ⟨n, -, hes⟩ := h
  exact hes ▸ Nat.le_add_right _ _

theorem Owes.settled (h : Owes come booked left es stage) (hnone : ∀ t, left (stage t) = 0) :
    come es = booked es := by
  obtain ⟨n, htotal, hes⟩ := h
  rw [hes, htotal.eq_zero hnone, Nat.add_zero]

end Ledger
