/-
# PrometheusCpp.Lib.UnorderedMap -- a finite map that is iterated in no particular order

`std::unordered_map` as a finite map keyed by equality: a list of entries with distinct keys, whose
order says nothing. A walk over the map is an `Iteration`, any permutation of the entries.
-/
import Mathlib.Data.List.Nodup
import Mathlib.Data.List.Perm.Basic

structure UnorderedMap (K V : Type*) where
  entries : List (K × V)
  nodup : (entries.map Prod.fst).Nodup

namespace UnorderedMap

variable {K V : Type*}

def empty : UnorderedMap K V := ⟨[], List.nodup_nil⟩

def keys (m : UnorderedMap K V) : List K := m.entries.map Prod.fst

theorem eq_of_entries {m m' : UnorderedMap K V} (h : m.entries = m'.entries) : m = m' := by
  cases m
  cases m'
  simpa using h

theorem mem_keys_of_mem {m : UnorderedMap K V} {k : K} {v : V} (h : (k, v) ∈ m.entries) :
    k ∈ m.keys := List.mem_map_of_mem h

/-- A key has one value. -/
theorem value_unique {m : UnorderedMap K V} {k : K} {v v' : V} (h : (k, v) ∈ m.entries)
    (h' : (k, v') ∈ m.entries) : v = v' :=
  (Prod.mk.inj (List.inj_on_of_nodup_map m.nodup h h' rfl)).2

/-- One walk over the map. -/
structure Iteration (m : UnorderedMap K V) where
  order : List (K × V)
  perm : order.Perm m.entries

/-! ## Operations -/

variable [DecidableEq K]

def find? (m : UnorderedMap K V) (k : K) : Option V :=
  (m.entries.find? fun e => decide (e.1 = k)).map Prod.snd

/-- Inserts an entry unless the key is there, and says whether it did. -/
def emplace (m : UnorderedMap K V) (k : K) (v : V) : UnorderedMap K V × Bool :=
  if h : k ∈ m.keys then (m, false)
  else
    (⟨m.entries ++ [(k, v)], by
      rw [List.map_append, List.nodup_append]
      exact ⟨m.nodup, by simp, fun a ha b hb => by
        obtain rfl : b = k := by simpa using hb
        exact fun hab => h (hab ▸ ha)⟩⟩, true)

def erase (m : UnorderedMap K V) (k : K) : UnorderedMap K V :=
  ⟨m.entries.filter fun e => decide (e.1 ≠ k), m.nodup.sublist (List.filter_sublist.map Prod.fst)⟩

omit [DecidableEq K] in
theorem nodup_eraseP (m : UnorderedMap K V) (p : K × V → Bool) :
    ((m.entries.eraseP p).map Prod.fst).Nodup :=
  m.nodup.sublist (List.eraseP_sublist.map Prod.fst)

/-- Erases the first entry found whose value is accepted. -/
def eraseValue (m : UnorderedMap K V) (p : V → Bool) : UnorderedMap K V :=
  ⟨m.entries.eraseP fun e => p e.2, nodup_eraseP m _⟩

def mapValues (m : UnorderedMap K V) (f : V → V) : UnorderedMap K V :=
  ⟨m.entries.map fun e => (e.1, f e.2), by simpa [Function.comp_def] using m.nodup⟩

omit [DecidableEq K] in
theorem mem_mapValues {m : UnorderedMap K V} {k : K} {v : V} (h : (k, v) ∈ m.entries) (f : V → V) :
    (k, f v) ∈ (m.mapValues f).entries := List.mem_map_of_mem h

theorem find?_eq_some {m : UnorderedMap K V} {k : K} {v : V} :
    m.find? k = some v ↔ (k, v) ∈ m.entries := by
  unfold find?
  constructor
  · intro h
    obtain ⟨⟨k', v'⟩, hfind, rfl⟩ := Option.map_eq_some_iff.mp h
    have hkey := List.find?_some hfind
    obtain rfl : k' = k := by simpa using hkey
    exact List.mem_of_find?_eq_some hfind
  · intro h
    cases hfind : m.entries.find? fun e => decide (e.1 = k) with
    | none =>
        have := List.find?_eq_none.mp hfind (k, v) h
        simp at this
    | some e =>
        obtain ⟨k', v'⟩ := e
        obtain rfl : k' = k := by simpa using List.find?_some hfind
        have := value_unique (List.mem_of_find?_eq_some hfind) h
        simp [this]

theorem emplace_of_mem {m : UnorderedMap K V} {k : K} (h : k ∈ m.keys) (v : V) :
    m.emplace k v = (m, false) := dif_pos h

theorem emplace_of_not_mem {m : UnorderedMap K V} {k : K} (h : k ∉ m.keys) (v : V) :
    (m.emplace k v).2 = true ∧ (m.emplace k v).1.entries = m.entries ++ [(k, v)] := by
  unfold emplace
  rw [dif_neg h]
  exact ⟨rfl, rfl⟩

/-- Erasing what was just inserted gives the map back. -/
theorem erase_emplace {m : UnorderedMap K V} {k : K} (h : k ∉ m.keys) (v : V) :
    (m.emplace k v).1.erase k = m := by
  apply eq_of_entries
  have hall : ∀ e ∈ m.entries, decide (e.1 ≠ k) = true := fun e he =>
    decide_eq_true fun heq => h (heq ▸ List.mem_map_of_mem he)
  show (m.emplace k v).1.entries.filter (fun e => decide (e.1 ≠ k)) = m.entries
  rw [(emplace_of_not_mem h v).2, List.filter_append, List.filter_eq_self.mpr hall]
  simp

/-- When no two entries have the same key, erasing the first of a key is leaving out all of it. -/
theorem eraseP_eq_filter {α : Type*} [BEq K] [LawfulBEq K] {key : α → K} {xs : List α}
    (h : (xs.map key).Nodup) (k : K) :
    xs.eraseP (fun x => key x == k) = xs.filter fun x => decide (key x ≠ k) := by
  induction xs with
  | nil => rfl
  | cons x xs ih =>
      obtain ⟨hx, hxs⟩ := List.nodup_cons.mp h
      by_cases hk : key x = k
      · have hrest : ∀ y ∈ xs, decide (key y ≠ k) = true := fun y hy =>
          decide_eq_true fun heq => hx (List.mem_map.mpr ⟨y, hy, heq.trans hk.symm⟩)
        rw [List.eraseP_cons_of_pos (by simpa using hk), List.filter_cons_of_neg (by simpa using hk),
          List.filter_eq_self.mpr hrest]
      · rw [List.eraseP_cons_of_neg (by simpa using hk), List.filter_cons_of_pos (by simpa using hk),
          ih hxs]

end UnorderedMap
