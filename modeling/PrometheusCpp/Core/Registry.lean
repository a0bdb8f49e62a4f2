/-
# PrometheusCpp.Core.Registry -- the registered families, `registry.cc`

A registry owns its families in five vectors, one for each metric type, and lets no two of them have
the same name. The check for a name is spread over five specialisations that each list the four
other vectors, and a search of the vector of the type itself. A family is known to the callers by
its address.
-/
import PrometheusCpp.Core.Family

namespace PrometheusCpp

open ByteString

inductive InsertBehavior where
  | merge
  | throw
  deriving DecidableEq

/-- A vector of families, each at an address of its own. -/
abbrev Families (k : MetricKind) := List (Ptr × Family k)

structure Registry where
  insert_behavior_ : InsertBehavior
  counters_ : Families .counter := []
  gauges_ : Families .gauge := []
  histograms_ : Families .histogram := []
  infos_ : Families .info := []
  summaries_ : Families .summary := []

namespace Registry

/-! ## The code -/

def new (insert_behavior : InsertBehavior) : Registry := { insert_behavior_ := insert_behavior }

def getFamilies (r : Registry) : (k : MetricKind) → Families k
  | .counter => r.counters_
  | .gauge => r.gauges_
  | .histogram => r.histograms_
  | .info => r.infos_
  | .summary => r.summaries_

def setFamilies (r : Registry) : (k : MetricKind) → Families k → Registry
  | .counter, families => { r with counters_ := families }
  | .gauge, families => { r with gauges_ := families }
  | .histogram, families => { r with histograms_ := families }
  | .info, families => { r with infos_ := families }
  | .summary, families => { r with summaries_ := families }

/-- The variadic recursion over vectors of families of any type. -/
def familyNameExists (name : Bytes) : List (Σ k, Families k) → Bool
  | [] => false
  | ⟨_, families⟩ :: args =>
    (families.find? fun entry => name == entry.2.name_).isSome || familyNameExists name args

def nameExistsInOtherType (r : Registry) (name : Bytes) : MetricKind → Bool
  | .counter => familyNameExists name
      [⟨_, r.gauges_⟩, ⟨_, r.histograms_⟩, ⟨_, r.infos_⟩, ⟨_, r.summaries_⟩]
  | .gauge => familyNameExists name
      [⟨_, r.counters_⟩, ⟨_, r.histograms_⟩, ⟨_, r.infos_⟩, ⟨_, r.summaries_⟩]
  | .histogram => familyNameExists name
      [⟨_, r.counters_⟩, ⟨_, r.gauges_⟩, ⟨_, r.infos_⟩, ⟨_, r.summaries_⟩]
  | .info => familyNameExists name
      [⟨_, r.counters_⟩, ⟨_, r.gauges_⟩, ⟨_, r.histograms_⟩, ⟨_, r.summaries_⟩]
  | .summary => familyNameExists name
      [⟨_, r.counters_⟩, ⟨_, r.gauges_⟩, ⟨_, r.histograms_⟩, ⟨_, r.infos_⟩]

/-- `address` is where a new family would be. -/
def add (r : Registry) (k : MetricKind) (name help : Bytes) (labels : Labels) (address : Ptr) :
    Except Exception Ptr × Registry :=
  if r.nameExistsInOtherType name k then
    (.error (.invalidArgument "Family name already exists with different type"), r)
  else
    match (r.getFamilies k).find? fun entry => name == entry.2.name_ with
    | some (family, it) =>
      if r.insert_behavior_ = .merge then
        if it.constant_labels_ = labels then (.ok family, r)
        else
          (.error (.invalidArgument "Family name already exists with different constant labels"), r)
      else (.error (.invalidArgument "Family name already exists"), r)
    | none =>
      -- The constructor of the family throws before anything is added to the vector.
      match Family.new k name help labels with
      | .error e => (.error e, r)
      | .ok family => (.ok address, r.setFamilies k (r.getFamilies k ++ [(address, family)]))

def remove (r : Registry) (k : MetricKind) (family : Ptr) : Bool × Registry :=
  match (r.getFamilies k).find? fun entry => entry.1 == family with
  | none => (false, r)
  | some _ =>
    (true, r.setFamilies k ((r.getFamilies k).eraseP fun entry => entry.1 == family))

/-- How the maps of the families are walked during one collect. -/
abbrev Walk := ∀ {k : MetricKind} (f : Family k), f.metrics_.Iteration

/-- The families are returned with the results, as collecting a summary changes it. -/
def collectAll {k : MetricKind} (walk : Walk) (clock : Ptr → Nat → Int) :
    Families k → Option (List MetricFamily × Families k)
  | [] => some ([], [])
  | (p, family) :: families => do
    let (metrics, family) ← family.collect (walk family) clock
    let (results, families) ← collectAll walk clock families
    some (metrics ++ results, (p, family) :: families)

def collect (r : Registry) (walk : Walk) (clock : Ptr → Nat → Int) :
    Option (List MetricFamily × Registry) := do
  let (counters, counters_) ← collectAll walk clock r.counters_
  let (gauges, gauges_) ← collectAll walk clock r.gauges_
  let (histograms, histograms_) ← collectAll walk clock r.histograms_
  let (infos, infos_) ← collectAll walk clock r.infos_
  let (summaries, summaries_) ← collectAll walk clock r.summaries_
  some (counters ++ gauges ++ histograms ++ infos ++ summaries,
    { r with counters_, gauges_, histograms_, infos_, summaries_ })

/-! ## Reachable registries -/

/-- What can happen to a registry: its own calls, and whatever can happen to a family in it. A new
family is at an address where no registered family is. -/
inductive Step : Registry → Registry → Prop
  | add {r : Registry} (k : MetricKind) (name help : Bytes) (labels : Labels) (address : Ptr)
      (fresh : ∀ k', ∀ entry ∈ r.getFamilies k', entry.1 ≠ address) :
      Step r (r.add k name help labels address).2
  | remove {r : Registry} (k : MetricKind) (family : Ptr) : Step r (r.remove k family).2
  | family {r : Registry} {k : MetricKind} {before after : Families k} {p : Ptr} {f f' : Family k}
      (registered : r.getFamilies k = before ++ (p, f) :: after) (taken : Family.Step f f') :
      Step r (r.setFamilies k (before ++ (p, f') :: after))
  | collect {r : Registry} (walk : Walk) (clock : Ptr → Nat → Int)
      {result : List MetricFamily × Registry} (done : r.collect walk clock = some result) :
      Step r result.2

inductive Reachable (insert_behavior : InsertBehavior) : Registry → Prop
  | new : Reachable insert_behavior (Registry.new insert_behavior)
  | step {r r' : Registry} (reached : Reachable insert_behavior r) (taken : Step r r') :
      Reachable insert_behavior r'

/-! ## The vectors -/

/-- The types in the order in which they are collected. -/
def kinds : List MetricKind := [.counter, .gauge, .histogram, .info, .summary]

theorem mem_kinds (k : MetricKind) : k ∈ kinds := by cases k <;> decide

def namesOf (r : Registry) (k : MetricKind) : List Bytes :=
  (r.getFamilies k).map fun entry => entry.2.name_

/-- The names of all families. -/
def names (r : Registry) : List Bytes := kinds.flatMap r.namesOf

theorem mem_names {r : Registry} {name : Bytes} : name ∈ r.names ↔ ∃ k, name ∈ r.namesOf k := by
  simp [names, mem_kinds]

@[simp] theorem getFamilies_setFamilies (r : Registry) (k : MetricKind) (families : Families k) :
    (r.setFamilies k families).getFamilies k = families := by cases k <;> rfl

theorem getFamilies_setFamilies_of_ne (r : Registry) {k k' : MetricKind} (h : k' ≠ k)
    (families : Families k) : (r.setFamilies k families).getFamilies k' = r.getFamilies k' := by
  cases k <;> cases k' <;> first | rfl | exact absurd rfl h

/-- What holds of the vector put in place, and of the others as they are, holds of all. -/
theorem forall_setFamilies {P : (k : MetricKind) → Families k → Prop} {r : Registry}
    {k : MetricKind} {families : Families k} (hself : P k families)
    (hother : ∀ k', k' ≠ k → P k' (r.getFamilies k')) (k' : MetricKind) :
    P k' ((r.setFamilies k families).getFamilies k') := by
  by_cases heq : k' = k
  · subst heq
    rwa [getFamilies_setFamilies]
  · rw [getFamilies_setFamilies_of_ne r heq]
    exact hother k' heq

@[simp] theorem setFamilies_getFamilies (r : Registry) (k : MetricKind) :
    r.setFamilies k (r.getFamilies k) = r := by cases k <;> rfl

@[simp] theorem setFamilies_insert_behavior (r : Registry) (k : MetricKind)
    (families : Families k) :
    (r.setFamilies k families).insert_behavior_ = r.insert_behavior_ := by cases k <;> rfl

theorem familyNameExists_iff (name : Bytes) (vectors : List (Σ k, Families k)) :
    familyNameExists name vectors = true ↔
      ∃ vector ∈ vectors, name ∈ vector.2.map fun entry => entry.2.name_ := by
  induction vectors with
  | nil => simp [familyNameExists]
  | cons vector vectors ih =>
      obtain ⟨k, families⟩ := vector
      rw [familyNameExists, Bool.or_eq_true, ih, List.exists_mem_cons_iff]
      refine or_congr ?_ Iff.rfl
      simp only [List.find?_isSome, List.mem_map, beq_iff_eq]
      exact ⟨fun ⟨entry, he, hname⟩ => ⟨entry, he, hname.symm⟩,
        fun ⟨entry, he, hname⟩ => ⟨entry, he, hname.symm⟩⟩

/-- The five specialisations each look at the four other vectors. -/
theorem nameExistsInOtherType_iff (r : Registry) (name : Bytes) (k : MetricKind) :
    r.nameExistsInOtherType name k = true ↔ ∃ k', k' ≠ k ∧ name ∈ r.namesOf k' := by
  have others : ∀ P : MetricKind → Prop, (∃ k', P k') ↔
      P .counter ∨ P .gauge ∨ P .histogram ∨ P .info ∨ P .summary := by
    intro P
    constructor
    · rintro ⟨k', h⟩
      cases k' <;> simp [h]
    · rintro (h | h | h | h | h) <;> exact ⟨_, h⟩
  cases k <;>
    simp only [nameExistsInOtherType, familyNameExists_iff, others] <;>
    simp [namesOf, getFamilies]

end Registry

end PrometheusCpp
