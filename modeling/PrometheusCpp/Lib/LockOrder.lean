/-
# PrometheusCpp.Lib.LockOrder -- threads that take locks in one order

Threads call functions that take and release locks. A function is known by what it does to the
locks. If every function takes locks of growing rank and releases them from the last, then no
threads ever wait for each other in a circle: whatever has happened, all calls in progress can
return (`Reachable.all_return`).
-/
import Mathlib.Algebra.BigOperators.Group.Finset.Basic
import Mathlib.Algebra.Order.BigOperators.Group.Finset
import Mathlib.Data.Fintype.Basic
import Mathlib.Logic.Relation
import Mathlib.Tactic.Common

namespace LockOrder

variable {ι L : Type*}

inductive Action (L : Type*) where
  | acquire (l : L)
  | release (l : L)

/-- A scope that holds a lock. -/
def guarded (l : L) (body : List (Action L)) : List (Action L) := .acquire l :: (body ++ [.release l])

/-! ## Threads -/

/-- Which thread has each lock, and what is left of the call of each thread. -/
structure State (ι L : Type*) where
  holder : L → Option ι
  rest : ι → List (Action L)

def State.new : State ι L := ⟨fun _ => none, fun _ => []⟩

section Steps

variable [DecidableEq ι] [DecidableEq L]

/-- A call in progress goes on; for a lock that is taken it has to wait. -/
inductive Goes (s : State ι L) : State ι L → Prop
  | acquire {t : ι} {l : L} {actions : List (Action L)} (next : s.rest t = .acquire l :: actions)
      (free : s.holder l = none) :
      Goes s ⟨Function.update s.holder l (some t), Function.update s.rest t actions⟩
  | release {t : ι} {l : L} {actions : List (Action L)} (next : s.rest t = .release l :: actions)
      (held : s.holder l = some t) :
      Goes s ⟨Function.update s.holder l none, Function.update s.rest t actions⟩

/-- What has been reached by calls of these functions. -/
inductive Reachable (Calls : List (Action L) → Prop) : State ι L → Prop
  | new : Reachable Calls .new
  | call {s : State ι L} {t : ι} {actions : List (Action L)} (reached : Reachable Calls s)
      (idle : s.rest t = []) (called : Calls actions) :
      Reachable Calls { s with rest := Function.update s.rest t actions }
  | goes {s s' : State ι L} (reached : Reachable Calls s) (taken : Goes s s') : Reachable Calls s'

end Steps

/-! ## One order -/

variable (rank : L → ℕ)

/-- With these locks held, the last one first, what follows takes locks of growing rank, releases
the last one taken and ends with none. -/
def Orderly : List L → List (Action L) → Prop
  | held, [] => held = []
  | held, .acquire l :: actions => (∀ h ∈ held, rank h < rank l) ∧ Orderly (l :: held) actions
  | held, .release l :: actions => ∃ held', held = l :: held' ∧ Orderly held' actions

/-- The part of a call takes only locks from a rank on, and has released them at its end. -/
def From (n : ℕ) (body : List (Action L)) : Prop :=
  ∀ held actions, (∀ h ∈ held, rank h < n) → Orderly rank held actions →
    Orderly rank held (body ++ actions)

variable {rank}

theorem From.orderly {n : ℕ} {body : List (Action L)} (h : From rank n body) :
    Orderly rank [] body := by
  have hbody := h [] [] (fun _ hmem => absurd hmem List.not_mem_nil) rfl
  rwa [List.append_nil] at hbody

theorem from_nil (n : ℕ) : From rank n [] := fun _ _ _ h => h

theorem From.append {n : ℕ} {body body' : List (Action L)} (h : From rank n body)
    (h' : From rank n body') : From rank n (body ++ body') := by
  intro held actions hheld hactions
  rw [List.append_assoc]
  exact h held _ hheld (h' held actions hheld hactions)

theorem From.flatMap {α : Type*} {n : ℕ} {f : α → List (Action L)} (xs : List α)
    (h : ∀ x ∈ xs, From rank n (f x)) : From rank n (xs.flatMap f) := by
  induction xs with
  | nil => exact from_nil n
  | cons x xs ih =>
      rw [List.flatMap_cons]
      exact (h x List.mem_cons_self).append (ih fun y hy => h y (List.mem_cons_of_mem _ hy))

theorem From.mono {m n : ℕ} {body : List (Action L)} (h : From rank n body) (hmn : m ≤ n) :
    From rank m body := fun held actions hheld =>
  h held actions fun l hl => (hheld l hl).trans_le hmn

/-- A scope takes its lock, and inside it locks of higher rank. -/
theorem From.guarded {n : ℕ} {l : L} {body : List (Action L)} (hl : rank l = n)
    (h : From rank (n + 1) body) : From rank n (guarded l body) := by
  subst hl
  intro held actions hheld hactions
  show (∀ h ∈ held, rank h < rank l) ∧ Orderly rank (l :: held) (body ++ [.release l] ++ actions)
  have hless : rank l < rank l + 1 := Nat.lt_succ_self _
  refine ⟨hheld, ?_⟩
  rw [List.append_assoc]
  refine h (l :: held) _ ?_ ⟨held, rfl, hactions⟩
  exact List.forall_mem_cons.mpr ⟨hless, fun k hk => (hheld k hk).trans hless⟩

/-! ## No circle -/

section Order

variable [DecidableEq ι] [DecidableEq L] {Calls : List (Action L) → Prop} {s s' : State ι L}

/-- The locks of each thread, in the order in which it has to release them. -/
structure Inv (rank : L → ℕ) (s : State ι L) (held : ι → List L) : Prop where
  holder : ∀ t l, l ∈ held t ↔ s.holder l = some t
  growing : ∀ t, (held t).Pairwise fun l l' => rank l' < rank l
  orderly : ∀ t, Orderly rank (held t) (s.rest t)

omit [DecidableEq L] in
theorem orderly_update {held : ι → List L} {rest : ι → List (Action L)}
    (h : ∀ t, Orderly rank (held t) (rest t)) {t : ι} {held' : List L} {actions : List (Action L)}
    (ht : Orderly rank held' actions) (t' : ι) :
    Orderly rank (Function.update held t held' t') (Function.update rest t actions t') := by
  by_cases heq : t' = t
  · subst heq
    rwa [Function.update_self, Function.update_self]
  · rw [Function.update_of_ne heq, Function.update_of_ne heq]
    exact h t'

omit [DecidableEq L] in
theorem growing_update {held : ι → List L}
    (h : ∀ t, (held t).Pairwise fun l l' => rank l' < rank l) {t : ι} {held' : List L}
    (ht : held'.Pairwise fun l l' => rank l' < rank l) (t' : ι) :
    (Function.update held t held' t').Pairwise fun l l' => rank l' < rank l := by
  by_cases heq : t' = t
  · subst heq
    rwa [Function.update_self]
  · rw [Function.update_of_ne heq]
    exact h t'

theorem Inv.goes {held : ι → List L} (h : Inv rank s held) (taken : Goes s s') :
    ∃ held', Inv rank s' held' := by
  cases taken with
  | @acquire t l actions next free =>
      have horderly := h.orderly t
      rw [next] at horderly
      obtain ⟨hbelow, hrest⟩ := horderly
      have hgrowing : (l :: held t).Pairwise fun l l' => rank l' < rank l :=
        List.pairwise_cons.mpr ⟨hbelow, h.growing t⟩
      refine ⟨Function.update held t (l :: held t), fun t' l' => ?_,
        growing_update h.growing hgrowing, orderly_update h.orderly hrest⟩
      show l' ∈ Function.update held t (l :: held t) t' ↔
        Function.update s.holder l (some t) l' = some t'
      by_cases hl : l' = l
      · -- Nobody else has the lock, as it was free.
        subst hl
        rw [Function.update_self, Option.some_inj]
        by_cases ht : t' = t
        · subst ht
          rw [Function.update_self]
          exact iff_of_true List.mem_cons_self rfl
        · rw [Function.update_of_ne ht, h.holder, free]
          exact iff_of_false nofun (Ne.symm ht)
      · rw [Function.update_of_ne hl, ← h.holder]
        by_cases ht : t' = t
        · subst ht
          rw [Function.update_self, List.mem_cons, or_iff_right hl]
        · rw [Function.update_of_ne ht]
  | @release t l actions next hholder =>
      have horderly := h.orderly t
      rw [next] at horderly
      obtain ⟨more, hmore, hrest⟩ := horderly
      have hgrowing := h.growing t
      rw [hmore] at hgrowing
      obtain ⟨hbelow, hgrowing⟩ := List.pairwise_cons.mp hgrowing
      refine ⟨Function.update held t more, fun t' l' => ?_, growing_update h.growing hgrowing,
        orderly_update h.orderly hrest⟩
      show l' ∈ Function.update held t more t' ↔ Function.update s.holder l none l' = some t'
      by_cases hl : l' = l
      · -- The lock was taken once, by this thread.
        subst hl
        rw [Function.update_self]
        refine iff_of_false (fun hmem => ?_) nofun
        by_cases ht : t' = t
        · subst ht
          rw [Function.update_self] at hmem
          exact lt_irrefl _ (hbelow l' hmem)
        · rw [Function.update_of_ne ht, h.holder, hholder] at hmem
          exact ht (Option.some.inj hmem).symm
      · rw [Function.update_of_ne hl, ← h.holder]
        by_cases ht : t' = t
        · subst ht
          rw [Function.update_self, hmore, List.mem_cons, or_iff_right hl]
        · rw [Function.update_of_ne ht]

theorem Reachable.inv (hcalls : ∀ actions, Calls actions → Orderly rank [] actions)
    (h : Reachable Calls s) : ∃ held, Inv rank s held := by
  induction h with
  | new => exact ⟨fun _ => [], by simp [State.new], fun _ => .nil, fun _ => rfl⟩
  | @call s t actions reached idle called ih =>
      obtain ⟨held, hinv⟩ := ih
      refine ⟨held, hinv.holder, hinv.growing, fun t' => ?_⟩
      by_cases ht : t' = t
      · subst ht
        have hnone : held t' = [] := by
          have horderly := hinv.orderly t'
          rwa [idle] at horderly
        simpa [Function.update_self, hnone] using hcalls actions called
      · simpa [Function.update_of_ne ht] using hinv.orderly t'
  | goes reached taken ih =>
      obtain ⟨held, hinv⟩ := ih
      exact hinv.goes taken

variable {bound : ℕ}

/-- A thread that waits for a lock waits for one that has it, and that one goes on or waits for a
lock of a higher rank. -/
theorem Inv.goes_of_waiting {held : ι → List L} (h : Inv rank s held) (hbound : ∀ l, rank l < bound) :
    ∀ (n : ℕ) {t : ι} {l : L} {actions : List (Action L)}, s.rest t = .acquire l :: actions →
      bound - rank l ≤ n → ∃ s', Goes s s' := by
  intro n
  induction n with
  | zero =>
      intro t l actions _ hn
      have hl := hbound l
      omega
  | succ n ih =>
      intro t l actions hnext hn
      cases hholder : s.holder l with
      | none => exact ⟨_, .acquire hnext hholder⟩
      | some t' =>
          have hmem := (h.holder t' l).mpr hholder
          have horderly := h.orderly t'
          cases hrest : s.rest t' with
          | nil =>
              rw [hrest] at horderly
              rw [horderly] at hmem
              exact absurd hmem List.not_mem_nil
          | cons action actions' =>
              rw [hrest] at horderly
              cases action with
              | acquire l' =>
                  have hlt := horderly.1 l hmem
                  exact ih hrest (by omega)
              | release l' =>
                  obtain ⟨more, hmore, -⟩ := horderly
                  have hmem' : l' ∈ held t' := hmore ▸ List.mem_cons_self
                  exact ⟨_, .release hrest ((h.holder t' l').mp hmem')⟩

theorem Inv.goes_of_busy {held : ι → List L} (h : Inv rank s held) (hbound : ∀ l, rank l < bound)
    {t : ι} (busy : s.rest t ≠ []) : ∃ s', Goes s s' := by
  cases hrest : s.rest t with
  | nil => exact absurd hrest busy
  | cons action actions =>
      cases action with
      | acquire l => exact h.goes_of_waiting hbound _ hrest (le_refl _)
      | release l =>
          have horderly := h.orderly t
          rw [hrest] at horderly
          obtain ⟨more, hmore, -⟩ := horderly
          have hmem : l ∈ held t := hmore ▸ List.mem_cons_self
          exact ⟨_, .release hrest ((h.holder t l).mp hmem)⟩

variable [Fintype ι]

/-- What is left of all calls. -/
def State.left (s : State ι L) : ℕ := ∑ t, (s.rest t).length

theorem Goes.left_lt (h : Goes s s') : s'.left < s.left := by
  have hless : ∀ {t : ι} {action : Action L} {actions : List (Action L)},
      s.rest t = action :: actions →
      ∑ t', (Function.update s.rest t actions t').length < s.left := by
    intro t action actions hrest
    refine Finset.sum_lt_sum (fun t' _ => ?_) ⟨t, Finset.mem_univ t, ?_⟩
    · by_cases ht : t' = t
      · subst ht
        rw [Function.update_self, hrest]
        exact Nat.le_succ _
      · rw [Function.update_of_ne ht]
    · rw [Function.update_self, hrest]
      exact Nat.lt_succ_self _
  cases h with
  | acquire next free => exact hless next
  | release next held => exact hless next

theorem Inv.all_return {held : ι → List L} (h : Inv rank s held) (hbound : ∀ l, rank l < bound) :
    ∃ s', Relation.ReflTransGen Goes s s' ∧ ∀ t, s'.rest t = [] := by
  induction hleft : s.left using Nat.strong_induction_on generalizing s held with
  | _ n ih =>
      by_cases hall : ∀ t, s.rest t = []
      · exact ⟨s, .refl, hall⟩
      · obtain ⟨t, busy⟩ := not_forall.mp hall
        obtain ⟨s', hgoes⟩ := h.goes_of_busy hbound busy
        obtain ⟨held', hinv'⟩ := h.goes hgoes
        obtain ⟨s'', hmore, hdone⟩ := ih s'.left (hleft ▸ hgoes.left_lt) hinv' rfl
        exact ⟨s'', .head hgoes hmore, hdone⟩

/-- Whatever calls have been made, all that are in progress can return, without another call. -/
theorem Reachable.all_return (hcalls : ∀ actions, Calls actions → Orderly rank [] actions)
    (hbound : ∀ l, rank l < bound) (h : Reachable Calls s) :
    ∃ s', Relation.ReflTransGen Goes s s' ∧ ∀ t, s'.rest t = [] := by
  obtain ⟨held, hinv⟩ := h.inv hcalls
  exact hinv.all_return hbound

end Order

end LockOrder
