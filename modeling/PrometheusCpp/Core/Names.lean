/-
# PrometheusCpp.Core.Names -- label maps and the checks on metric and label names

`Labels` is a `std::map` from names to values: entries in strictly increasing order of their
names. `checkMetricName` and `checkLabelName` are the functions of `check_names.cc`, and the
theorems below say which regular expressions they decide.
-/
import PrometheusCpp.Lib.ByteString
import Mathlib.Data.List.Lex
import Mathlib.Data.List.Sort

namespace PrometheusCpp

open ByteString

/-! ## Labels -/

/-- A `std::map<std::string, std::string>`: at most one value for a name, in the order of names. -/
structure Labels where
  entries : List (Bytes × Bytes)
  sorted : entries.Pairwise fun a b => a.1 < b.1
  deriving DecidableEq

namespace Labels

def empty : Labels := ⟨[], List.Pairwise.nil⟩

/-- The map `{{name, value}}`. -/
def single (name value : Bytes) : Labels := ⟨[(name, value)], List.pairwise_singleton _ _⟩

/-- `count(name)`, which is zero or one for a map. -/
def count (labels : Labels) (name : Bytes) : Nat := labels.entries.countP (·.1 == name)

theorem count_ne_zero_iff (labels : Labels) (name : Bytes) :
    labels.count name ≠ 0 ↔ name ∈ labels.entries.map Prod.fst := by
  simp only [count, ne_eq, List.countP_eq_zero, not_forall, List.mem_map]
  constructor
  · rintro ⟨entry, hentry, hname⟩
    exact ⟨entry, hentry, by simpa using hname⟩
  · rintro ⟨entry, hentry, rfl⟩
    exact ⟨entry, hentry, by simp⟩

/-- No name occurs twice. -/
theorem nodup_names (labels : Labels) : (labels.entries.map Prod.fst).Nodup := by
  rw [List.Nodup, List.pairwise_map]
  exact labels.sorted.imp fun {a b} h => fun heq => by
    rw [heq] at h
    exact List.lt_irrefl _ h

/-- A label map is determined by the set of its entries. -/
theorem eq_of_mem_iff {l₁ l₂ : Labels}
    (h : ∀ entry, entry ∈ l₁.entries ↔ entry ∈ l₂.entries) : l₁ = l₂ := by
  have hperm : l₁.entries.Perm l₂.entries :=
    (List.perm_ext_iff_of_nodup l₁.nodup_names.of_map l₂.nodup_names.of_map).mpr h
  have heq : l₁.entries = l₂.entries := by
    refine hperm.eq_of_pairwise ?_ l₁.sorted l₂.sorted
    intro a b _ _ hab hba
    exact absurd (List.lt_trans hab hba) (List.lt_irrefl _)
  cases l₁
  cases l₂
  simpa using heq

end Labels

/-! ## Metric types -/

inductive MetricType where
  | counter
  | gauge
  | summary
  | untyped
  | histogram
  | info
  deriving DecidableEq

/-! ## Name checks -/

def isLocaleIndependentAlphaNumeric (c : UInt8) : Bool := isAlnum c

def isLocaleIndependentDigit (c : UInt8) : Bool := isDigit c

def colon : UInt8 := 58

/-- Rejects the empty name, a leading digit and the reserved prefix of two underscores. -/
def nameStartsValid (name : Bytes) : Bool :=
  match name with
  | [] => false
  | front :: _ =>
    if isLocaleIndependentDigit front then false
    else if name.take 2 = [underscore, underscore] then false
    else true

def validMetricCharacter (c : UInt8) : Bool :=
  isLocaleIndependentAlphaNumeric c || c == underscore || c == colon

def checkMetricName (name : Bytes) : Bool :=
  if !nameStartsValid name then false
  else name.all validMetricCharacter

def validLabelCharacter (c : UInt8) : Bool :=
  isLocaleIndependentAlphaNumeric c || c == underscore

/-- The label name the serializer adds itself to samples of the type, and so reserves. -/
def reservedLabelName : MetricType → Option Bytes
  | .histogram => some (ascii "le")
  | .summary => some (ascii "quantile")
  | _ => none

def checkLabelName (name : Bytes) (type : MetricType) : Bool :=
  if !nameStartsValid name then false
  else if (type = .histogram ∧ name = ascii "le") ∨
      (type = .summary ∧ name = ascii "quantile") then false
  else name.all validLabelCharacter

/-! ## The regular expressions behind the checks -/

/-- The name is one character that is not a digit and then any number of characters, all of the
class: `[a-zA-Z_:][a-zA-Z0-9_:]*` for the class of metric characters. -/
def MatchesName (class_ : UInt8 → Bool) (name : Bytes) : Prop :=
  ∃ front rest, name = front :: rest ∧ (class_ front ∧ isDigit front = false) ∧
    ∀ c ∈ rest, class_ c

/-- The name starts with two underscores. -/
def StartsReserved (name : Bytes) : Prop := [underscore, underscore] <+: name

theorem nameStartsValid_cons (front : UInt8) (rest : Bytes) :
    nameStartsValid (front :: rest) = true ↔
      isDigit front = false ∧ ¬ StartsReserved (front :: rest) := by
  have hprefix : (front :: rest).take 2 = [underscore, underscore] ↔
      StartsReserved (front :: rest) := by
    rw [StartsReserved, List.prefix_iff_eq_take]
    exact eq_comm
  rw [nameStartsValid, ← hprefix, isLocaleIndependentDigit]
  by_cases hdigit : isDigit front = true
  · simp [hdigit]
  · by_cases htwo : (front :: rest).take 2 = [underscore, underscore]
    · rw [if_neg hdigit, if_pos htwo]
      exact ⟨fun h => Bool.noConfusion h, fun h => absurd htwo h.2⟩
    · rw [if_neg hdigit, if_neg htwo]
      exact ⟨fun _ => ⟨by simpa using hdigit, htwo⟩, fun _ => rfl⟩

theorem nameStartsValid_and_all_iff (class_ : UInt8 → Bool) (name : Bytes) :
    nameStartsValid name = true ∧ name.all class_ = true ↔
      MatchesName class_ name ∧ ¬ StartsReserved name := by
  cases name with
  | nil => simp [nameStartsValid, MatchesName]
  | cons front rest =>
      rw [nameStartsValid_cons]
      simp only [List.all_cons, MatchesName, Bool.and_eq_true, List.all_eq_true]
      constructor
      · rintro ⟨⟨hdigit, hres⟩, hfront, hrest⟩
        exact ⟨⟨front, rest, rfl, ⟨hfront, hdigit⟩, hrest⟩, hres⟩
      · rintro ⟨⟨f, r, hname, ⟨hfront, hdigit⟩, hrest⟩, hres⟩
        obtain ⟨rfl, rfl⟩ := List.cons.inj hname
        exact ⟨⟨hdigit, hres⟩, hfront, hrest⟩

theorem checkMetricName_iff (name : Bytes) :
    checkMetricName name = true ↔
      MatchesName validMetricCharacter name ∧ ¬ StartsReserved name := by
  rw [← nameStartsValid_and_all_iff]
  cases h : nameStartsValid name <;> simp [checkMetricName, h]

theorem checkLabelName_iff (name : Bytes) (type : MetricType) :
    checkLabelName name type = true ↔
      MatchesName validLabelCharacter name ∧ ¬ StartsReserved name ∧
        reservedLabelName type ≠ some name := by
  have hreserved : (type = .histogram ∧ name = ascii "le") ∨
      (type = .summary ∧ name = ascii "quantile") ↔ reservedLabelName type = some name := by
    cases type <;> simp [reservedLabelName, eq_comm]
  rw [← and_assoc, ← nameStartsValid_and_all_iff, checkLabelName]
  simp only [hreserved]
  cases h : nameStartsValid name with
  | false => simp
  | true =>
      by_cases hres : reservedLabelName type = some name <;> simp [hres]

/-- Every character of a valid metric name is a metric character. -/
theorem validMetricCharacter_of_mem {name : Bytes} (h : checkMetricName name = true) {c : UInt8}
    (hc : c ∈ name) : validMetricCharacter c = true := by
  rw [checkMetricName] at h
  split at h
  · exact Bool.noConfusion h
  · exact List.all_eq_true.mp h c hc

/-- Every character of a valid label name is a label character. -/
theorem validLabelCharacter_of_mem {name : Bytes} {type : MetricType}
    (h : checkLabelName name type = true) {c : UInt8} (hc : c ∈ name) :
    validLabelCharacter c = true := by
  rw [checkLabelName] at h
  split at h
  · exact Bool.noConfusion h
  · split at h
    · exact Bool.noConfusion h
    · exact List.all_eq_true.mp h c hc

end PrometheusCpp
