/-
# PrometheusCpp.Lib.Settling -- passes that are repeated until they change nothing

A pass over some data that either changes nothing or makes a measure smaller reaches a state it
leaves alone, at the latest after as many repetitions as the measure was at the start.
-/
import Mathlib.Logic.Function.Iterate
import Mathlib.Tactic.Common

namespace Settling

variable {σ : Type*}

/-- A pass that changes something makes the measure smaller. -/
def Descends (measure : σ → Nat) (pass : σ → σ) : Prop :=
  ∀ x, pass x = x ∨ measure (pass x) < measure x

theorem iterate_of_settled {pass : σ → σ} {x : σ} (h : pass x = x) (n : Nat) : pass^[n] x = x :=
  Function.iterate_fixed h n

theorem Descends.settled {measure : σ → Nat} {pass : σ → σ} (h : Descends measure pass) :
    ∀ (n : Nat) (x : σ), measure x ≤ n → pass (pass^[n] x) = pass^[n] x := by
  intro n
  induction n with
  | zero =>
      intro x hx
      rcases h x with hsame | hless
      · exact hsame
      · omega
  | succ n ih =>
      intro x hx
      rw [Function.iterate_succ_apply]
      rcases h x with hsame | hless
      · rw [hsame, iterate_of_settled hsame]
        exact hsame
      · exact ih (pass x) (by omega)

/-- From the measure on the number of repetitions does not matter. -/
theorem Descends.iterate_eq {measure : σ → Nat} {pass : σ → σ} (h : Descends measure pass) {x : σ}
    {m n : Nat} (hm : measure x ≤ m) (hn : measure x ≤ n) : pass^[m] x = pass^[n] x := by
  have from_measure : ∀ k, measure x ≤ k → pass^[k] x = pass^[measure x] x := by
    intro k hk
    obtain ⟨d, rfl⟩ : ∃ d, k = d + measure x := ⟨k - measure x, by omega⟩
    rw [Function.iterate_add_apply]
    exact iterate_of_settled (h.settled _ x (Nat.le_refl _)) d
  rw [from_measure m hm, from_measure n hn]

end Settling
