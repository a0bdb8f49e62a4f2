/-
# PrometheusCpp.Lib.RelatedLists -- lists related entry by entry

A traversal that can fail at every entry returns a list that is related to the one it was given,
entry by entry (`mapM_eq_some_iff`). The rules below take facts along such a relation: about an
entry, about two entries of one list, about lists put together from parts.
-/
import Mathlib.Data.List.Forall2
import Mathlib.Tactic.Common

namespace RelatedLists

variable {α β : Type*} {R : α → β → Prop} {xs : List α} {ys : List β}

/-- Whatever is on the left is related to something on the right. -/
theorem exists_right (h : List.Forall₂ R xs ys) {x : α} (hx : x ∈ xs) : ∃ y ∈ ys, R x y := by
  induction h with
  | nil => exact absurd hx List.not_mem_nil
  | @cons x' y xs ys hxy hrest ih =>
      rcases List.mem_cons.mp hx with rfl | hmem
      · exact ⟨y, List.mem_cons_self, hxy⟩
      · obtain ⟨y', hy', hrel⟩ := ih hmem
        exact ⟨y', List.mem_cons_of_mem _ hy', hrel⟩

/-- Whatever is on the right is related to something on the left. -/
theorem exists_left (h : List.Forall₂ R xs ys) {y : β} (hy : y ∈ ys) : ∃ x ∈ xs, R x y :=
  exists_right (R := flip R) h.flip hy

/-- A pairwise relation goes along related entries. -/
theorem pairwise {P : α → α → Prop} {Q : β → β → Prop} (h : List.Forall₂ R xs ys)
    (hstep : ∀ x ∈ xs, ∀ x' ∈ xs, ∀ y y', R x y → R x' y' → P x x' → Q y y')
    (hpairwise : xs.Pairwise P) : ys.Pairwise Q := by
  induction h with
  | nil => exact .nil
  | @cons x y xs ys hxy hrest ih =>
      obtain ⟨hfirst, hmore⟩ := List.pairwise_cons.mp hpairwise
      refine List.pairwise_cons.mpr ⟨fun y' hy' => ?_, ih (fun a ha a' ha' =>
        hstep a (List.mem_cons_of_mem _ ha) a' (List.mem_cons_of_mem _ ha')) hmore⟩
      obtain ⟨x', hx', hrel⟩ := exists_left hrest hy'
      exact hstep x List.mem_cons_self x' (List.mem_cons_of_mem _ hx') y y' hxy hrel (hfirst x' hx')

theorem map_eq {γ : Type*} {f : α → γ} {g : β → γ} (h : List.Forall₂ R xs ys)
    (heq : ∀ x y, R x y → f x = g y) : xs.map f = ys.map g := by
  rw [← List.forall₂_eq_eq_eq, List.forall₂_map_left_iff, List.forall₂_map_right_iff]
  exact h.imp heq

/-- What is related to a list in two parts has two parts. -/
theorem exists_append {xs' : List α} (h : List.Forall₂ R (xs ++ xs') ys) :
    ∃ zs zs', ys = zs ++ zs' ∧ List.Forall₂ R xs zs ∧ List.Forall₂ R xs' zs' := by
  induction xs generalizing ys with
  | nil => exact ⟨[], ys, rfl, .nil, h⟩
  | cons x xs ih =>
      cases h with
      | @cons _ y _ ys hy hrest =>
          obtain ⟨zs, zs', rfl, hzs, hzs'⟩ := ih hrest
          exact ⟨y :: zs, zs', rfl, .cons hy hzs, hzs'⟩

theorem flatMap {ι : Type*} {f : ι → List α} {g : ι → List β} (is : List ι)
    (h : ∀ i ∈ is, List.Forall₂ R (f i) (g i)) :
    List.Forall₂ R (is.flatMap f) (is.flatMap g) := by
  induction is with
  | nil => exact .nil
  | cons i is ih =>
      rw [List.flatMap_cons, List.flatMap_cons]
      exact List.rel_append (h i List.mem_cons_self) (ih fun j hj => h j (List.mem_cons_of_mem _ hj))

/-! ## Traversals that can fail -/

section Traversal

variable {g : α → Option β}

theorem mapM_eq_some_iff : ∀ {xs : List α} {ys : List β},
    xs.mapM g = some ys ↔ List.Forall₂ (fun x y => g x = some y) xs ys := by
  intro xs
  induction xs with
  | nil =>
      intro ys
      rw [List.mapM_nil, List.forall₂_nil_left_iff]
      exact Option.some_inj.trans eq_comm
  | cons x xs ih =>
      intro ys
      rw [List.mapM_cons]
      constructor
      · intro h
        obtain ⟨y, hy, hmore⟩ := Option.bind_eq_some_iff.mp h
        obtain ⟨rest, hrest, hys⟩ := Option.bind_eq_some_iff.mp hmore
        rw [← Option.some.inj hys]
        exact .cons hy (ih.mp hrest)
      · rintro (_ | ⟨hy, hrest⟩)
        simp [hy, ih.mpr hrest]

theorem mapM_congr {g' : α → Option β} (h : ∀ x ∈ xs, g' x = g x) : xs.mapM g' = xs.mapM g := by
  induction xs with
  | nil => rfl
  | cons x xs ih =>
      obtain ⟨hx, hrest⟩ := List.forall_mem_cons.mp h
      rw [List.mapM_cons, List.mapM_cons, hx, ih hrest]

theorem exists_mapM_eq_some (h : ∀ x ∈ xs, (g x).isSome) : ∃ ys, xs.mapM g = some ys := by
  induction xs with
  | nil => exact ⟨[], rfl⟩
  | cons x xs ih =>
      obtain ⟨y, hy⟩ := Option.isSome_iff_exists.mp (h x List.mem_cons_self)
      obtain ⟨ys, hys⟩ := ih fun x' hx' => h x' (List.mem_cons_of_mem _ hx')
      exact ⟨y :: ys, by simp [List.mapM_cons, hy, hys]⟩

end Traversal

end RelatedLists
