/-
# PrometheusCpp.Lib.WeakList -- lists of weak pointers with lazily removed entries

What a list of weak pointers is worth is the list of those that can still be locked. Expired entries
stay in the list until someone purges it, and a removal compares locked pointers, so an expired
argument matches every expired entry and no other. For the living entries neither makes a
difference, at any later time (`SameLiving`): the list may be replaced by one that is never purged
and from which a pointer is removed by what it points to.
-/
import Mathlib.Data.List.Basic

namespace WeakList

variable {α : Type*}

/-- The pointer, unless what it points to is gone. -/
def lock (expired : α → Bool) (p : α) : Option α := if expired p then none else some p

/-- Erases the entries that cannot be locked. -/
def purge (expired : α → Bool) (entries : List α) : List α := entries.filter fun p => !expired p

/-- Erases the entries that lock to the same as the given pointer. -/
def removeLocked [DecidableEq α] (expired : α → Bool) (p : α) (entries : List α) : List α :=
  entries.filter fun candidate => lock expired p ≠ lock expired candidate

/-- The entries that can be locked. -/
def living (expired : α → Bool) (entries : List α) : List α := entries.filterMap (lock expired)

/-- The same for everyone who locks the entries. -/
def SameLiving (expired : α → Bool) (entries others : List α) : Prop :=
  living expired entries = living expired others

theorem living_eq_filter (expired : α → Bool) (entries : List α) :
    living expired entries = entries.filter fun p => !expired p := by
  rw [living, ← List.filterMap_eq_filter]
  congr 1
  funext p
  cases h : expired p <;> simp [lock, h, Option.guard]

theorem living_append (expired : α → Bool) (entries others : List α) :
    living expired (entries ++ others) = living expired entries ++ living expired others :=
  List.filterMap_append

theorem living_purge (expired : α → Bool) (entries : List α) :
    living expired (purge expired entries) = living expired entries := by
  rw [living_eq_filter, living_eq_filter, purge, List.filter_filter]
  simp only [Bool.and_self]

/-- A living pointer is removed from among the living entries, and an expired one is not there. -/
theorem living_removeLocked [DecidableEq α] (expired : α → Bool) (p : α) (entries : List α) :
    living expired (removeLocked expired p entries) =
      living expired (entries.filter fun candidate => candidate ≠ p) := by
  rw [living_eq_filter, living_eq_filter, removeLocked, List.filter_filter, List.filter_filter]
  apply List.filter_congr
  intro candidate _
  cases hcandidate : expired candidate
  · cases hp : expired p
    · simp [lock, hp, hcandidate, eq_comm]
    · have hne : candidate ≠ p := by
        rintro rfl
        rw [hp] at hcandidate
        exact Bool.noConfusion hcandidate
      simp [lock, hp, hcandidate, hne]
  · simp

namespace SameLiving

variable {expired expired' : α → Bool} {entries others : List α}

/-- What is expired once stays so, and the living entries are among those that lived before. -/
theorem mono (h : SameLiving expired entries others)
    (hmono : ∀ p, expired p = true → expired' p = true) : SameLiving expired' entries others := by
  have hfilter : ∀ list : List α,
      living expired' list = (living expired list).filter fun p => !expired' p := by
    intro list
    rw [living_eq_filter, living_eq_filter, List.filter_filter]
    apply List.filter_congr
    intro p _
    cases hp : expired p
    · simp
    · simp [hmono p hp]
  unfold SameLiving at h ⊢
  rw [hfilter, hfilter, h]

theorem push (h : SameLiving expired entries others) (p : α) :
    SameLiving expired (purge expired entries ++ [p]) (others ++ [p]) := by
  unfold SameLiving at h ⊢
  rw [living_append, living_append, living_purge, h]

theorem remove [DecidableEq α] (h : SameLiving expired entries others) (p : α) :
    SameLiving expired (removeLocked expired p entries)
      (others.filter fun candidate => candidate ≠ p) := by
  have hswap : ∀ list : List α, living expired (list.filter fun candidate => candidate ≠ p) =
      (living expired list).filter fun candidate => candidate ≠ p := by
    intro list
    rw [living_eq_filter, living_eq_filter, List.filter_filter, List.filter_filter]
    simp only [Bool.and_comm]
  unfold SameLiving at h ⊢
  rw [living_removeLocked, hswap, hswap, h]

end SameLiving

end WeakList
