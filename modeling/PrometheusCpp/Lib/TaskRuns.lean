/-
# PrometheusCpp.Lib.TaskRuns -- running tasks until one fails, and running them all

Two ways to run a list of tasks whose outcomes are known. One stops behind the first failure and
reports it; the other runs every task and reports the failure that is last in the list. They run the
same tasks exactly when no task with another one behind it fails (`untilFailure_perm_iff`); then
they report the same.
-/
import Mathlib.Data.List.Basic
import Mathlib.Data.List.Induction
import Mathlib.Data.List.Pairwise

namespace TaskRuns

variable {α β : Type*} (fails : β → Bool) (done : β)

/-- What was run and the first failure. -/
def untilFailure : List (α × β) → List α × β
  | [] => ([], done)
  | (task, outcome) :: rest =>
    if fails outcome then ([task], outcome)
    else
      let (tasks, result) := untilFailure rest
      (task :: tasks, result)

/-- The last failure. -/
def lastFailure (outcomes : List β) : β :=
  outcomes.foldl (fun result outcome => if fails outcome then outcome else result) done

/-- No task with another one behind it fails. -/
def OnlyLastFails (tasks : List (α × β)) : Prop :=
  tasks.Pairwise fun task _ => fails task.2 = false

variable {fails done}

/-- With a failure only at the end both ways are the same. -/
theorem untilFailure_eq {tasks : List (α × β)} (h : OnlyLastFails fails tasks) :
    untilFailure fails done tasks =
      (tasks.map Prod.fst, lastFailure fails done (tasks.map Prod.snd)) := by
  induction tasks with
  | nil => rfl
  | cons task rest ih =>
      obtain ⟨hfirst, hrest⟩ := List.pairwise_cons.mp h
      unfold untilFailure
      split_ifs with hfails
      · -- Behind a failing task there is none.
        obtain rfl : rest = [] := List.eq_nil_iff_forall_not_mem.mpr fun other hother => by
          rw [hfirst other hother] at hfails
          exact Bool.false_ne_true hfails
        simp [lastFailure, hfails]
      · rw [ih hrest]
        simp [lastFailure, hfails]

/-- Tasks for some of the entries of a list: the place of a task is how many the entries before have. -/
theorem filterMap_zipIdx {γ δ : Type*} (f : γ → Option α) (g : Nat → α → δ) (xs : List γ) :
    (xs.zipIdx.filterMap fun entry => (f entry.1).map
      (g ((xs.take entry.2).countP fun x => (f x).isSome))) =
        (xs.filterMap f).zipIdx.map fun task => g task.2 task.1 := by
  induction xs using List.reverseRecOn with
  | nil => rfl
  | append_singleton xs x ih =>
      rw [List.zipIdx_append, List.filterMap_append, List.filterMap_append, List.zipIdx_append,
        List.map_append, ← ih]
      congr 1
      · refine List.filterMap_congr fun entry hentry => ?_
        rw [List.take_append_of_le_length (Nat.le_of_lt (List.snd_lt_of_mem_zipIdx hentry))]
      · cases hx : f x <;> simp [hx, List.length_filterMap_eq_countP]

/-- Both run the same tasks, in whatever order, only then. -/
theorem untilFailure_perm_iff {tasks : List (α × β)} :
    (untilFailure fails done tasks).1.Perm (tasks.map Prod.fst) ↔ OnlyLastFails fails tasks := by
  constructor
  · intro h
    have hlength := h.length_eq
    rw [List.length_map] at hlength
    clear h
    induction tasks with
    | nil => exact List.Pairwise.nil
    | cons task rest ih =>
        unfold untilFailure at hlength
        split_ifs at hlength with hfails
        · simp only [List.length_cons, List.length_nil] at hlength
          obtain rfl : rest = [] := List.eq_nil_of_length_eq_zero (by omega)
          exact List.pairwise_singleton _ _
        · simp only [List.length_cons] at hlength
          refine List.pairwise_cons.mpr ⟨fun _ _ => by simpa using hfails, ih ?_⟩
          omega
  · intro h
    rw [untilFailure_eq h]

end TaskRuns
