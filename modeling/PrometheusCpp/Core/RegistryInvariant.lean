/-
# PrometheusCpp.Core.RegistryInvariant -- what a reachable registry guarantees

The names of the registered families are distinct across the five vectors, because every `Add`
either finds the name or has looked for it in all of them (`add_cases`). The invariant goes through
every step of a registry, the steps of its families included, and the guarantees of the interface
follow from it (`registry_contract`).
-/
import PrometheusCpp.Core.Registry

namespace PrometheusCpp

open ByteString

/-! ## Steps keep a family's identity -/

namespace Family

variable {k : MetricKind} {f f' : Family k}

theorem step_name (h : Step f f') : f'.name_ = f.name_ := by
  cases h with
  | add labels p object constructed nonnull fresh =>
      rcases add_cases f labels (p, object) with ⟨stored, -, hadd⟩ | ⟨e, -, -, hadd⟩ |
        ⟨-, -, f', hadd, rfl, -⟩ <;> rw [hadd]
  | remove metric => rfl
  | call metric call done =>
      obtain ⟨entry, -, hmore⟩ := Option.bind_eq_some_iff.mp done
      obtain ⟨object, -, hf'⟩ := Option.bind_eq_some_iff.mp hmore
      rw [← Option.some.inj hf']
  | collect iteration clock done =>
      unfold Family.collect at done
      split at done
      · rw [← Option.some.inj done]
      · obtain ⟨metric, -, hr⟩ := Option.bind_eq_some_iff.mp done
        rw [← Option.some.inj hr]

end Family

namespace Registry

variable {r r' : Registry}

/-! ## What the calls do -/

theorem not_mem_names {name : Bytes} {k : MetricKind}
    (hother : ∀ k', k' ≠ k → name ∉ r.namesOf k') (hnone : name ∉ r.namesOf k) :
    name ∉ r.names := by
  rw [mem_names]
  rintro ⟨k', hk'⟩
  by_cases heq : k' = k
  · exact hnone (heq ▸ hk')
  · exact hother k' heq hk'

/-- The name is that of another type's family, or of a family of the type, or it is new and the
constructor throws, or it is new and the family goes to the end of its vector. -/
theorem add_cases (r : Registry) (k : MetricKind) (name help : Bytes) (labels : Labels)
    (address : Ptr) :
    ((∃ k', k' ≠ k ∧ name ∈ r.namesOf k') ∧ ∃ e, r.add k name help labels address = (.error e, r)) ∨
    ((∀ k', k' ≠ k → name ∉ r.namesOf k') ∧ ∃ p f, (p, f) ∈ r.getFamilies k ∧ f.name_ = name ∧
      (r.insert_behavior_ = .merge ∧ f.constant_labels_ = labels ∧
          r.add k name help labels address = (.ok p, r) ∨
        (r.insert_behavior_ = .throw ∨ f.constant_labels_ ≠ labels) ∧
          ∃ e, r.add k name help labels address = (.error e, r))) ∨
    (name ∉ r.names ∧ ∃ e, Family.new k name help labels = .error e ∧
      r.add k name help labels address = (.error e, r)) ∨
    (name ∉ r.names ∧ ∃ f, Family.new k name help labels = .ok f ∧
      r.add k name help labels address =
        (.ok address, r.setFamilies k (r.getFamilies k ++ [(address, f)]))) := by
  by_cases hexists : r.nameExistsInOtherType name k = true
  · left
    exact ⟨(nameExistsInOtherType_iff r name k).mp hexists, _, by rw [add, if_pos hexists]⟩
  -- From here on only the vector of the type itself is searched.
  have hother : ∀ k', k' ≠ k → name ∉ r.namesOf k' := fun k' hne hmem =>
    hexists ((nameExistsInOtherType_iff r name k).mpr ⟨k', hne, hmem⟩)
  cases hfind : (r.getFamilies k).find? fun entry => name == entry.2.name_ with
  | some entry =>
      obtain ⟨p, f⟩ := entry
      have hfound := List.find?_some hfind
      have hname : f.name_ = name := (eq_of_beq hfound).symm
      right; left
      refine ⟨hother, p, f, List.mem_of_find?_eq_some hfind, hname, ?_⟩
      by_cases hmerge : r.insert_behavior_ = .merge
      · by_cases hlabels : f.constant_labels_ = labels
        · exact .inl ⟨hmerge, hlabels, by simp [add, hexists, hfind, hmerge, hlabels]⟩
        · exact .inr ⟨.inr hlabels, _, by simp [add, hexists, hfind, hmerge, hlabels]; rfl⟩
      · have hthrow : r.insert_behavior_ = .throw := by
          cases hb : r.insert_behavior_ with
          | merge => exact absurd hb hmerge
          | throw => rfl
        exact .inr ⟨.inl hthrow, _, by simp [add, hexists, hfind, hmerge]; rfl⟩
  | none =>
      have hnone : name ∉ r.namesOf k := by
        intro hmem
        obtain ⟨entry, hentry, rfl⟩ := List.mem_map.mp hmem
        have := List.find?_eq_none.mp hfind entry hentry
        simp at this
      have hnew := not_mem_names hother hnone
      right; right
      cases hfamily : Family.new k name help labels with
      | error e => exact .inl ⟨hnew, e, rfl, by simp [add, hexists, hfind, hfamily]⟩
      | ok f => exact .inr ⟨hnew, f, rfl, by simp [add, hexists, hfind, hfamily]⟩

/-- A refused `Add` leaves the registry as it is. -/
theorem add_of_error {k : MetricKind} {name help : Bytes} {labels : Labels} {address : Ptr}
    {e : Exception} (h : (r.add k name help labels address).1 = .error e) :
    (r.add k name help labels address).2 = r := by
  rcases add_cases r k name help labels address with ⟨-, e, hadd⟩ |
    ⟨-, p, f, -, -, ⟨-, -, hadd⟩ | ⟨-, e, hadd⟩⟩ | ⟨-, e, -, hadd⟩ | ⟨-, f, -, hadd⟩
  · rw [hadd]
  · rw [hadd]
  · rw [hadd]
  · rw [hadd]
  · rw [hadd] at h
    cases h

/-- No family of the type is at the address and nothing happens, or the first one there goes. -/
theorem remove_cases (r : Registry) (k : MetricKind) (family : Ptr) :
    ((∀ entry ∈ r.getFamilies k, entry.1 ≠ family) ∧ r.remove k family = (false, r)) ∨
    ((∃ f, (family, f) ∈ r.getFamilies k) ∧ r.remove k family =
      (true, r.setFamilies k ((r.getFamilies k).eraseP fun entry => entry.1 == family))) := by
  cases hfind : (r.getFamilies k).find? fun entry => entry.1 == family with
  | none =>
      left
      refine ⟨fun entry hentry => ?_, by rw [Registry.remove, hfind]⟩
      simpa using List.find?_eq_none.mp hfind entry hentry
  | some entry =>
      obtain ⟨p, f⟩ := entry
      right
      have hfound := List.find?_some hfind
      obtain rfl : p = family := eq_of_beq hfound
      exact ⟨⟨f, List.mem_of_find?_eq_some hfind⟩, by rw [Registry.remove, hfind]⟩

/-- The families after a collect are those before it, in their places, each collected. -/
theorem collectAll_families {k : MetricKind} {walk : Walk} {clock : Ptr → Nat → Int}
    {families : Families k} : ∀ {result : List MetricFamily × Families k},
      collectAll walk clock families = some result →
      List.Forall₂ (fun entry entry' => entry'.1 = entry.1 ∧
        ∃ metrics, entry.2.collect (walk entry.2) clock = some (metrics, entry'.2))
        families result.2 := by
  induction families with
  | nil =>
      intro result h
      rw [← Option.some.inj h]
      exact .nil
  | cons entry families ih =>
      obtain ⟨p, f⟩ := entry
      intro result h
      obtain ⟨⟨metrics, f'⟩, hcollect, hmore⟩ := Option.bind_eq_some_iff.mp h
      obtain ⟨rest, hrest, hresult⟩ := Option.bind_eq_some_iff.mp hmore
      rw [← Option.some.inj hresult]
      exact .cons ⟨rfl, metrics, hcollect⟩ (ih hrest)

/-! ## The invariant -/

structure Inv (r : Registry) : Prop where
  families : ∀ k, ∀ entry ∈ r.getFamilies k, entry.2.Inv
  distinct : ∀ k, (r.namesOf k).Nodup
  disjoint : ∀ k k', k ≠ k' → ∀ name ∈ r.namesOf k, name ∉ r.namesOf k'
  addresses : ∀ k, ((r.getFamilies k).map Prod.fst).Nodup

theorem inv_new (insert_behavior : InsertBehavior) : Inv (new insert_behavior) where
  families k := by cases k <;> simp [new, getFamilies]
  distinct k := by cases k <;> simp [new, namesOf, getFamilies]
  disjoint k k' _ name hname := by cases k <;> simp [new, namesOf, getFamilies] at hname
  addresses k := by cases k <;> simp [new, getFamilies]

/-- One vector is replaced: it has to be in order itself and keep off the names of the others. -/
theorem Inv.setFamilies (h : Inv r) {k : MetricKind} {families : Families k}
    (hinv : ∀ entry ∈ families, entry.2.Inv)
    (hnames : (families.map fun entry => entry.2.name_).Nodup)
    (hother : ∀ entry ∈ families, ∀ k', k' ≠ k → entry.2.name_ ∉ r.namesOf k')
    (haddresses : (families.map Prod.fst).Nodup) : Inv (r.setFamilies k families) := by
  have hself : (r.setFamilies k families).namesOf k = families.map fun entry => entry.2.name_ := by
    rw [namesOf, getFamilies_setFamilies]
  have hkeep : ∀ k', k' ≠ k → (r.setFamilies k families).namesOf k' = r.namesOf k' := by
    intro k' hne
    rw [namesOf, getFamilies_setFamilies_of_ne r hne, namesOf]
  refine ⟨?_, ?_, fun k₁ k₂ hne name hname => ?_, ?_⟩
  · exact forall_setFamilies (P := fun _ families => ∀ entry ∈ families, entry.2.Inv) hinv
      fun k' _ => h.families k'
  · exact forall_setFamilies (P := fun k families =>
      (families.map fun entry : Ptr × Family k => entry.2.name_).Nodup) hnames fun k' _ => h.distinct k'
  · -- Of two different types at most one is the type of the new vector.
    by_cases heq₁ : k₁ = k
    · subst heq₁
      rw [hkeep k₂ hne.symm]
      obtain ⟨entry, hentry, rfl⟩ := List.mem_map.mp (hself ▸ hname)
      exact hother entry hentry k₂ hne.symm
    · rw [hkeep k₁ heq₁] at hname
      by_cases heq₂ : k₂ = k
      · subst heq₂
        rw [hself]
        intro hmem
        obtain ⟨entry, hentry, rfl⟩ := List.mem_map.mp hmem
        exact hother entry hentry k₁ heq₁ hname
      · rw [hkeep k₂ heq₂]
        exact h.disjoint k₁ k₂ hne name hname
  · exact forall_setFamilies (P := fun _ families => (families.map Prod.fst).Nodup) haddresses
      fun k' _ => h.addresses k'

/-- The address and the name of an entry. -/
def identity {k : MetricKind} (entry : Ptr × Family k) : Ptr × Bytes := (entry.1, entry.2.name_)

/-- Families that change where they are, under their names, keep the invariant. -/
theorem Inv.of_identity (h : Inv r)
    (hidentity : ∀ k, (r'.getFamilies k).map identity = (r.getFamilies k).map identity)
    (hinv : ∀ k, ∀ entry ∈ r'.getFamilies k, entry.2.Inv) : Inv r' := by
  have hnames : ∀ k, r'.namesOf k = r.namesOf k := by
    intro k
    have := congrArg (List.map Prod.snd) (hidentity k)
    rw [List.map_map, List.map_map] at this
    exact this
  have haddresses : ∀ k, (r'.getFamilies k).map Prod.fst = (r.getFamilies k).map Prod.fst := by
    intro k
    have := congrArg (List.map Prod.fst) (hidentity k)
    rw [List.map_map, List.map_map] at this
    exact this
  refine ⟨hinv, fun k => ?_, fun k k' hne => ?_, fun k => ?_⟩
  · rw [hnames]
    exact h.distinct k
  · rw [hnames, hnames]
    exact h.disjoint k k' hne
  · rw [haddresses]
    exact h.addresses k

theorem Inv.add (h : Inv r) (k : MetricKind) (name help : Bytes) (labels : Labels) {address : Ptr}
    (fresh : ∀ k', ∀ entry ∈ r.getFamilies k', entry.1 ≠ address) :
    Inv (r.add k name help labels address).2 := by
  rcases add_cases r k name help labels address with ⟨-, e, hadd⟩ |
    ⟨-, p, f, -, -, ⟨-, -, hadd⟩ | ⟨-, e, hadd⟩⟩ | ⟨-, e, -, hadd⟩ | ⟨hnew, f, hf, hadd⟩
  · rwa [hadd]
  · rwa [hadd]
  · rwa [hadd]
  · rwa [hadd]
  · -- The new family is the only one of its name, in all five vectors, and at its address.
    rw [hadd]
    have hname : f.name_ = name := by rw [(Family.new_eq_ok hf).2.2]
    have habsent : ∀ k', name ∉ r.namesOf k' := fun k' hmem => hnew (mem_names.mpr ⟨k', hmem⟩)
    refine h.setFamilies ?_ ?_ ?_ ?_
    · intro entry hentry
      rcases List.mem_append.mp hentry with hold | hlast
      · exact h.families k entry hold
      · rw [List.mem_singleton.mp hlast]
        exact Family.Inv.new hf
    · rw [List.map_append, List.nodup_append]
      refine ⟨h.distinct k, List.nodup_singleton _, ?_⟩
      rintro n hn n' hn' rfl
      obtain rfl : n = name := by simpa [hname] using hn'
      exact habsent k hn
    · intro entry hentry k' hne
      rcases List.mem_append.mp hentry with hold | hlast
      · exact h.disjoint k k' hne.symm _ (List.mem_map_of_mem hold)
      · rw [List.mem_singleton.mp hlast, hname]
        exact habsent k'
    · rw [List.map_append, List.nodup_append]
      refine ⟨h.addresses k, List.nodup_singleton _, ?_⟩
      rintro p hp p' hp' rfl
      obtain rfl : p = address := by simpa using hp'
      obtain ⟨entry, hentry, rfl⟩ := List.mem_map.mp hp
      exact fresh k entry hentry rfl

/-- Erasing families keeps the invariant. -/
theorem Inv.sublist (h : Inv r) {k : MetricKind} {families : Families k}
    (hsub : families.Sublist (r.getFamilies k)) : Inv (r.setFamilies k families) :=
  h.setFamilies (fun entry hentry => h.families k entry (hsub.subset hentry))
    ((h.distinct k).sublist (hsub.map _))
    (fun _ hentry k' hne =>
      h.disjoint k k' hne.symm _ (List.mem_map_of_mem (hsub.subset hentry)))
    ((h.addresses k).sublist (hsub.map _))

theorem Inv.remove (h : Inv r) (k : MetricKind) (family : Ptr) : Inv (r.remove k family).2 := by
  rcases remove_cases r k family with ⟨-, hremove⟩ | ⟨-, hremove⟩
  · rwa [hremove]
  · rw [hremove]
    exact h.sublist List.eraseP_sublist

/-! ## Collecting -/

/-- A vector is collected family by family, without the empty ones. -/
theorem collectAll_collects {k : MetricKind} (walk : Walk) (clock : Ptr → Nat → Int)
    (families : Families k) : (∀ entry ∈ families, entry.2.Inv) →
      (∀ entry ∈ families, ∀ metric ∈ entry.2.metrics_.entries,
        (k.collect (clock metric.2.1) metric.2.2).isSome) →
      ∃ result, collectAll walk clock families = some result ∧
        List.Forall₂ (fun entry family => entry.2.Collects (walk entry.2) clock family)
          (families.filter fun entry => !entry.2.metrics_.entries.isEmpty) result.1 := by
  induction families with
  | nil => intro _ _; exact ⟨([], []), rfl, .nil⟩
  | cons entry families ih =>
      obtain ⟨p, f⟩ := entry
      intro hinv hreturns
      obtain ⟨rest, hrest, hall⟩ := ih (fun e he => hinv e (List.mem_cons_of_mem _ he))
        (fun e he => hreturns e (List.mem_cons_of_mem _ he))
      by_cases hempty : f.metrics_.entries = []
      · refine ⟨(rest.1, (p, f) :: rest.2), ?_, ?_⟩
        · simp [collectAll, Family.collect_of_empty hempty (walk f) clock, hrest]
        · rw [List.filter_cons_of_neg (by simp [hempty])]
          exact hall
      · obtain ⟨family, f', hcollect, hcollects⟩ := (hinv (p, f) List.mem_cons_self).collect_metrics
          (walk f) clock hempty (hreturns (p, f) List.mem_cons_self)
        refine ⟨(family :: rest.1, (p, f') :: rest.2), ?_, ?_⟩
        · simp [collectAll, hcollect, hrest]
        · rw [List.filter_cons_of_pos (by simpa using hempty)]
          exact .cons hcollects hall

theorem collect_eq_some {walk : Walk} {clock : Ptr → Nat → Int}
    {result : List MetricFamily × Registry} (h : r.collect walk clock = some result) :
    ∃ collected : (k : MetricKind) → List MetricFamily × Families k,
      (∀ k, collectAll walk clock (r.getFamilies k) = some (collected k)) ∧
      result.1 = kinds.flatMap (fun k => (collected k).1) ∧
      ∀ k, result.2.getFamilies k = (collected k).2 := by
  obtain ⟨counters, hcounters, h⟩ := Option.bind_eq_some_iff.mp h
  obtain ⟨gauges, hgauges, h⟩ := Option.bind_eq_some_iff.mp h
  obtain ⟨histograms, hhistograms, h⟩ := Option.bind_eq_some_iff.mp h
  obtain ⟨infos, hinfos, h⟩ := Option.bind_eq_some_iff.mp h
  obtain ⟨summaries, hsummaries, h⟩ := Option.bind_eq_some_iff.mp h
  let collected : (k : MetricKind) → List MetricFamily × Families k :=
    MetricKind.each counters gauges histograms infos summaries
  refine ⟨collected, fun k => ?_, ?_, fun k => ?_⟩
  · cases k
    · exact hcounters
    · exact hgauges
    · exact hhistograms
    · exact hinfos
    · exact hsummaries
  · rw [← Option.some.inj h]
    simp [kinds, collected, MetricKind.each]
  · rw [← Option.some.inj h]
    cases k <;> rfl

/-- What holds of the families of a vector still does when it holds of the one put in. -/
theorem forall_mem_replace {α : Type*} {P : α → Prop} {before after : List α} {x x' : α}
    (h : ∀ y ∈ before ++ x :: after, P y) (hx : P x → P x') : ∀ y ∈ before ++ x' :: after, P y := by
  simp only [List.forall_mem_append, List.forall_mem_cons] at h ⊢
  exact ⟨h.1, hx h.2.1, h.2.2⟩

theorem Inv.step (h : Inv r) (hstep : Step r r') : Inv r' := by
  cases hstep with
  | add k name help labels address fresh => exact h.add k name help labels fresh
  | remove k family => exact h.remove k family
  | @family k before after p f f' registered taken =>
      have hsame : ∀ entry, (before ++ (p, entry) :: after).map identity =
          before.map identity ++ (p, entry.name_) :: after.map identity := by
        intro entry
        rw [List.map_append, List.map_cons]
        rfl
      apply h.of_identity
      · apply forall_setFamilies (P := fun k' families =>
          families.map identity = (r.getFamilies k').map identity)
        · rw [registered, hsame, hsame, Family.step_name taken]
        · exact fun k' _ => rfl
      · apply forall_setFamilies (P := fun _ families => ∀ entry ∈ families, entry.2.Inv)
        · have hold := h.families k
          rw [registered] at hold
          exact forall_mem_replace hold fun hf => Family.Inv.step hf taken
        · exact fun k' _ => h.families k'
  | collect walk clock done =>
      -- Collecting a family is one of its steps, so every vector keeps its names and addresses.
      obtain ⟨collected, hall, -, hfamilies⟩ := collect_eq_some done
      refine h.of_identity (fun k => ?_) (fun k => ?_)
      · rw [hfamilies]
        refine (RelatedLists.map_eq (collectAll_families (hall k)) fun entry entry' hentry => ?_).symm
        obtain ⟨haddress, metrics, hcollect⟩ := hentry
        show (entry.1, entry.2.name_) = (entry'.1, entry'.2.name_)
        rw [haddress, Family.step_name (.collect _ _ hcollect)]
      · rw [hfamilies]
        intro entry' hentry'
        obtain ⟨entry, hentry, -, metrics, hcollect⟩ :=
          RelatedLists.exists_left (collectAll_families (hall k)) hentry'
        exact (h.families k entry hentry).step (.collect _ _ hcollect)

theorem Reachable.inv {insert_behavior : InsertBehavior} (h : Reachable insert_behavior r) :
    Inv r := by
  induction h with
  | new => exact inv_new insert_behavior
  | step reached taken ih => exact ih.step taken

/-! ## What a reachable registry guarantees -/

/-- A name a metric can have. -/
def ValidMetricName (name : Bytes) : Prop :=
  MatchesName validMetricCharacter name ∧ ¬ StartsReserved name

/-- A name a label of a metric of the type can have. -/
def ValidLabelName (type : MetricType) (name : Bytes) : Prop :=
  MatchesName validLabelCharacter name ∧ ¬ StartsReserved name ∧ reservedLabelName type ≠ some name

/-- The name is registered under another type; or under the type, and repeats are refused or the
constant labels are others; or it is new, and it or the name of a constant label is not valid. -/
def Refuses (r : Registry) (k : MetricKind) (name : Bytes) (labels : Labels) : Prop :=
  (∃ k', k' ≠ k ∧ name ∈ r.namesOf k') ∨
  (∃ entry ∈ r.getFamilies k, entry.2.name_ = name ∧
    (r.insert_behavior_ = .throw ∨ entry.2.constant_labels_ ≠ labels)) ∨
  (name ∉ r.names ∧ (¬ ValidMetricName name ∨
    ∃ label ∈ labels.entries, ¬ ValidLabelName k.metricType label.1))

/-- The families that own an object, in the order in which they are collected. -/
def nonEmpty (r : Registry) : List (Σ k, Family k) :=
  kinds.flatMap fun k => ((r.getFamilies k).filter fun entry => !entry.2.metrics_.entries.isEmpty).map
    fun entry => ⟨k, entry.2⟩

structure Contract (r : Registry) : Prop where
  names_distinct : r.names.Nodup
  names_valid : ∀ name ∈ r.names, ValidMetricName name
  add_throws_unchanged : ∀ k name help labels address e,
    (r.add k name help labels address).1 = .error e → (r.add k name help labels address).2 = r
  add_throws_iff : ∀ k name help labels address,
    (∃ e, (r.add k name help labels address).1 = .error e) ↔ r.Refuses k name labels
  add_registered : ∀ k name help labels address p f, (p, f) ∈ r.getFamilies k → f.name_ = name →
    f.constant_labels_ = labels → r.insert_behavior_ = .merge →
    r.add k name help labels address = (.ok p, r)
  add_new : ∀ k name help labels address, name ∉ r.names → ¬ r.Refuses k name labels →
    ∃ f, Family.new k name help labels = .ok f ∧ r.add k name help labels address =
      (.ok address, r.setFamilies k (r.getFamilies k ++ [(address, f)]))
  remove_iff : ∀ k p, (r.remove k p).1 = true ↔ ∃ f, (p, f) ∈ r.getFamilies k
  remove_families : ∀ k p, (r.remove k p).2 =
    r.setFamilies k ((r.getFamilies k).filter fun entry => decide (entry.1 ≠ p))
  remove_one : ∀ k, ∀ entry ∈ r.getFamilies k, ∀ entry' ∈ r.getFamilies k, entry.1 = entry'.1 →
    entry = entry'
  collect_families : ∀ (walk : Walk) clock, (∀ k, ∀ entry ∈ r.getFamilies k,
      ∀ metric ∈ entry.2.metrics_.entries, (k.collect (clock metric.2.1) metric.2.2).isSome) →
    ∃ result, r.collect walk clock = some result ∧
      List.Forall₂ (fun f family => f.2.Collects (walk f.2) clock family) r.nonEmpty result.1

theorem family_new_error_iff (k : MetricKind) (name help : Bytes) (labels : Labels) :
    (∃ e, Family.new k name help labels = .error e) ↔
      ¬ ValidMetricName name ∨ ∃ label ∈ labels.entries, ¬ ValidLabelName k.metricType label.1 := by
  rw [Family.new_error_iff]
  simp only [← Bool.not_eq_true, checkMetricName_iff, checkLabelName_iff, ValidMetricName,
    ValidLabelName]

theorem Inv.add_throws_iff (h : Inv r) (k : MetricKind) (name help : Bytes) (labels : Labels)
    (address : Ptr) :
    (∃ e, (r.add k name help labels address).1 = .error e) ↔ r.Refuses k name labels := by
  unfold Refuses
  rw [← family_new_error_iff k name help labels]
  rcases add_cases r k name help labels address with ⟨hother, e, hadd⟩ |
    ⟨hother, p, f, hmem, hname, hrest⟩ | ⟨hnew, e, hf, hadd⟩ | ⟨hnew, f, hf, hadd⟩
  · exact ⟨fun _ => .inl hother, fun _ => ⟨e, by rw [hadd]⟩⟩
  · have hnames : name ∈ r.names :=
      mem_names.mpr ⟨k, hname ▸ List.mem_map_of_mem hmem⟩
    -- The family found is the only one of its name.
    have honly : ∀ entry ∈ r.getFamilies k, entry.2.name_ = name → entry = (p, f) :=
      fun entry hentry heq =>
        List.inj_on_of_nodup_map (h.distinct k) hentry hmem (heq.trans hname.symm)
    rcases hrest with ⟨hmerge, hlabels, hadd⟩ | ⟨hrefused, e, hadd⟩
    · rw [hadd]
      refine ⟨fun he => by simp at he, ?_⟩
      rintro (⟨k', hne, hmem'⟩ | ⟨entry, hentry, heq, hthrow | hdiffer⟩ | ⟨hnot, -⟩)
      · exact absurd hmem' (hother k' hne)
      · rw [hmerge] at hthrow
        cases hthrow
      · rw [honly entry hentry heq] at hdiffer
        exact absurd hlabels hdiffer
      · exact absurd hnames hnot
    · exact ⟨fun _ => .inr (.inl ⟨(p, f), hmem, hname, hrefused⟩), fun _ => ⟨e, by rw [hadd]⟩⟩
  · exact ⟨fun _ => .inr (.inr ⟨hnew, e, hf⟩), fun _ => ⟨e, by rw [hadd]⟩⟩
  · rw [hadd]
    refine ⟨fun he => by simp at he, ?_⟩
    rintro (⟨k', -, hmem⟩ | ⟨entry, hentry, heq, -⟩ | ⟨-, e, he⟩)
    · exact absurd (mem_names.mpr ⟨k', hmem⟩) hnew
    · exact absurd (mem_names.mpr ⟨k, heq ▸ List.mem_map_of_mem hentry⟩) hnew
    · rw [hf] at he
      cases he

theorem Inv.collect_families (h : Inv r) (walk : Walk) (clock : Ptr → Nat → Int)
    (hreturns : ∀ k, ∀ entry ∈ r.getFamilies k, ∀ metric ∈ entry.2.metrics_.entries,
      (k.collect (clock metric.2.1) metric.2.2).isSome) :
    ∃ result, r.collect walk clock = some result ∧
      List.Forall₂ (fun f family => f.2.Collects (walk f.2) clock family) r.nonEmpty result.1 := by
  choose collected hcollected hall using fun k =>
    collectAll_collects walk clock (r.getFamilies k) (h.families k) (hreturns k)
  have hsome : ∃ result, r.collect walk clock = some result := by
    have hcounters := hcollected .counter
    have hgauges := hcollected .gauge
    have hhistograms := hcollected .histogram
    have hinfos := hcollected .info
    have hsummaries := hcollected .summary
    simp only [getFamilies] at hcounters hgauges hhistograms hinfos hsummaries
    simp [collect, hcounters, hgauges, hhistograms, hinfos, hsummaries]
  obtain ⟨result, hresult⟩ := hsome
  obtain ⟨collected', hcollected', hfamilies, -⟩ := collect_eq_some hresult
  have hsame : ∀ k, collected' k = collected k := fun k =>
    Option.some.inj ((hcollected' k).symm.trans (hcollected k))
  refine ⟨result, hresult, ?_⟩
  rw [hfamilies, nonEmpty]
  refine RelatedLists.flatMap kinds fun k _ => ?_
  rw [hsame, List.forall₂_map_left_iff]
  exact hall k

/-- A repeat of a registered family gives the family back, where repeats are merged. -/
theorem Inv.add_of_registered (h : Inv r) {k : MetricKind} {name : Bytes} {labels : Labels} {p : Ptr}
    {f : Family k} (hmem : (p, f) ∈ r.getFamilies k) (hname : f.name_ = name)
    (hlabels : f.constant_labels_ = labels) (hmerge : r.insert_behavior_ = .merge) (help : Bytes)
    (address : Ptr) : r.add k name help labels address = (.ok p, r) := by
  have hregistered : name ∈ r.namesOf k := hname ▸ List.mem_map_of_mem hmem
  rcases add_cases r k name help labels address with ⟨⟨k', hne, hother⟩, -⟩ |
    ⟨-, p', f', hmem', hname', hrest⟩ | ⟨hnew, -⟩ | ⟨hnew, -⟩
  · exact absurd hother (h.disjoint k k' hne.symm name hregistered)
  · -- The family found is the one given, as the name is registered once.
    have hsame : (p', f') = (p, f) :=
      List.inj_on_of_nodup_map (h.distinct k) hmem' hmem (hname'.trans hname.symm)
    obtain ⟨rfl, rfl⟩ := Prod.mk.inj hsame
    rcases hrest with ⟨-, -, hadd⟩ | ⟨hthrow | hdiffer, -⟩
    · exact hadd
    · rw [hmerge] at hthrow
      cases hthrow
    · exact absurd hlabels hdiffer
  · exact absurd (mem_names.mpr ⟨k, hregistered⟩) hnew
  · exact absurd (mem_names.mpr ⟨k, hregistered⟩) hnew

theorem Inv.contract (h : Inv r) : Contract r where
  names_distinct := by
    refine List.nodup_flatMap.mpr ⟨fun k _ => h.distinct k, ?_⟩
    have hkinds : kinds.Pairwise (· ≠ ·) := by decide
    exact hkinds.imp fun {k k'} hne name hname hname' => h.disjoint k k' hne name hname hname'
  names_valid name hname := by
    obtain ⟨k, hk⟩ := mem_names.mp hname
    obtain ⟨entry, hentry, rfl⟩ := List.mem_map.mp hk
    exact (checkMetricName_iff _).mp (h.families k entry hentry).name
  add_throws_unchanged k name help labels address e he := add_of_error he
  add_throws_iff k name help labels address := h.add_throws_iff k name help labels address
  add_registered k name help labels address p f hmem hname hlabels hmerge :=
    h.add_of_registered hmem hname hlabels hmerge help address
  add_new k name help labels address hnew hnot := by
    have hok := (h.add_throws_iff k name help labels address).not.mpr hnot
    rcases add_cases r k name help labels address with ⟨-, e, hadd⟩ |
      ⟨-, p, f, hmem, hname, -⟩ | ⟨-, e, -, hadd⟩ | ⟨-, f, hf, hadd⟩
    · exact absurd ⟨e, by rw [hadd]⟩ hok
    · exact absurd (mem_names.mpr ⟨k, hname ▸ List.mem_map_of_mem hmem⟩) hnew
    · exact absurd ⟨e, by rw [hadd]⟩ hok
    · exact ⟨f, hf, hadd⟩
  remove_iff k p := by
    rcases remove_cases r k p with ⟨hnone, hremove⟩ | ⟨hsome, hremove⟩
    · rw [hremove]
      refine ⟨fun h => by simp at h, fun ⟨f, hf⟩ => ?_⟩
      exact absurd rfl (hnone (p, f) hf)
    · rw [hremove]
      exact ⟨fun _ => hsome, fun _ => rfl⟩
  remove_families k p := by
    rcases remove_cases r k p with ⟨hnone, hremove⟩ | ⟨-, hremove⟩
    · have hkeep : (r.getFamilies k).filter (fun entry => decide (entry.1 ≠ p)) =
          r.getFamilies k :=
        List.filter_eq_self.mpr fun entry hentry => decide_eq_true (hnone entry hentry)
      rw [hremove, hkeep, setFamilies_getFamilies]
    · rw [hremove, UnorderedMap.eraseP_eq_filter (h.addresses k)]
  remove_one k entry hentry entry' hentry' hsame :=
    List.inj_on_of_nodup_map (h.addresses k) hentry hentry' hsame
  collect_families walk clock hreturns := h.collect_families walk clock hreturns

theorem step_insert_behavior (h : Step r r') : r'.insert_behavior_ = r.insert_behavior_ := by
  cases h with
  | add k name help labels address fresh =>
      rcases add_cases r k name help labels address with ⟨-, e, hadd⟩ |
        ⟨-, p, f, -, -, ⟨-, -, hadd⟩ | ⟨-, e, hadd⟩⟩ | ⟨-, e, -, hadd⟩ | ⟨-, f, -, hadd⟩ <;>
        simp [hadd]
  | remove k family =>
      rcases remove_cases r k family with ⟨-, hremove⟩ | ⟨-, hremove⟩
      · rw [hremove]
      · rw [hremove]
        exact setFamilies_insert_behavior r k _
  | family registered taken => exact setFamilies_insert_behavior r _ _
  | collect walk clock done =>
      obtain ⟨counters, -, h⟩ := Option.bind_eq_some_iff.mp done
      obtain ⟨gauges, -, h⟩ := Option.bind_eq_some_iff.mp h
      obtain ⟨histograms, -, h⟩ := Option.bind_eq_some_iff.mp h
      obtain ⟨infos, -, h⟩ := Option.bind_eq_some_iff.mp h
      obtain ⟨summaries, -, h⟩ := Option.bind_eq_some_iff.mp h
      rw [← Option.some.inj h]

theorem Reachable.insert_behavior {insert_behavior : InsertBehavior}
    (h : Reachable insert_behavior r) : r.insert_behavior_ = insert_behavior := by
  induction h with
  | new => rfl
  | step reached taken ih => rw [step_insert_behavior taken, ih]

/-- The guarantees hold in every registry reached from an empty one. -/
theorem registry_contract {insert_behavior : InsertBehavior} (h : Reachable insert_behavior r) :
    r.insert_behavior_ = insert_behavior ∧ Contract r := ⟨h.insert_behavior, h.inv.contract⟩

/-! ## A registry with two families -/

/-- A counter family and a gauge family, each with a constant label, before and after a metric is
added to the first. -/
def twoFamilies : Registry :=
  let r := ((new .merge).add .counter (ascii "hits") [] (.single (ascii "job") (ascii "api")) 1).2
  (r.add .gauge (ascii "depth") [] (.single (ascii "zone") (ascii "eu")) 2).2

def hits : Family .counter where
  metrics_ := .empty
  name_ := ascii "hits"
  help_ := []
  constant_labels_ := .single (ascii "job") (ascii "api")

def twoFamiliesAndMetric : Registry :=
  twoFamilies.setFamilies .counter
    [(1, (hits.add (.single (ascii "path") (ascii "/a")) (3, ({} : Counter))).2)]

theorem registry_contract_of_two : twoFamiliesAndMetric.names = [ascii "hits", ascii "depth"] ∧
    twoFamiliesAndMetric.counters_.map (fun entry => entry.2.metrics_.keys) =
      [[.single (ascii "path") (ascii "/a")]] ∧
    twoFamiliesAndMetric.insert_behavior_ = .merge ∧ Contract twoFamiliesAndMetric := by
  have hempty : Reachable .merge (new .merge) := .new
  have hone := hempty.step (.add .counter (ascii "hits") [] (.single (ascii "job") (ascii "api")) 1
    fun k => by cases k <;> exact nofun)
  have htwo : Reachable .merge twoFamilies := hone.step (.add .gauge (ascii "depth") []
    (.single (ascii "zone") (ascii "eu")) 2 fun k => by cases k <;> decide +kernel)
  have hregistered : twoFamilies.getFamilies .counter = [] ++ (1, hits) :: [] := rfl
  have hadd : Family.Step hits
      (hits.add (.single (ascii "path") (ascii "/a")) (3, ({} : Counter))).2 :=
    .add _ 3 _ .counter (by decide) nofun
  exact ⟨by decide +kernel, by decide +kernel,
    registry_contract (htwo.step (.family hregistered hadd))⟩

end Registry

end PrometheusCpp
