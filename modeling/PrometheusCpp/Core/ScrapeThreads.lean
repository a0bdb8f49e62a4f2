/-
# PrometheusCpp.Core.ScrapeThreads -- a registry that is scraped while it is used

A scrape holds the lock of the registry throughout, and the lock of one family while it walks that
family's map. Meanwhile other threads call the objects, add metrics to other families and take them
out. So the result is of no single moment; but it has no name and no label set twice
(`scrape_sound`). A method of an object takes effect at once, as the objects are linearizable.
-/
import PrometheusCpp.Core.TimeSeries
import PrometheusCpp.Lib.Linearization

namespace PrometheusCpp

open ByteString Linearization TextSerializer

/-! ## Calls on a family -/

namespace Family

variable {k : MetricKind}

inductive Op (k : MetricKind) where
  | add (labels : Labels) (p : Ptr) (object : k.Object)
  | remove (metric : Ptr)
  | call (metric : Ptr) (call : k.Call)

/-- What changes the map takes the lock of the family; a caller holds its object by reference. -/
def Op.locks : Op k → Bool
  | .add _ _ _ => true
  | .remove _ => true
  | .call _ _ => false

inductive Does (f : Family k) : Op k → Family k → Prop
  | add (labels : Labels) (p : Ptr) (object : k.Object) (constructed : k.Constructed object)
      (nonnull : p ≠ nullptr) (fresh : ∀ entry ∈ f.metrics_.entries, entry.2.1 ≠ p) :
      Does f (.add labels p object) (f.add labels (p, object)).2
  | remove (metric : Ptr) : Does f (.remove metric) (f.remove metric)
  | call {f' : Family k} (metric : Ptr) (call : k.Call) (done : f.callObject metric call = some f') :
      Does f (.call metric call) f'

theorem Does.step {f f' : Family k} {op : Op k} (h : f.Does op f') : Step f f' := by
  cases h with
  | add labels p object constructed nonnull fresh => exact .add labels p object constructed nonnull fresh
  | remove metric => exact .remove metric
  | call metric call done => exact .call metric call done

/-- The family when one of its objects has been collected. -/
def collectObject (f : Family k) (clock : Ptr → Nat → Int) (metric : Ptr) : Family k :=
  { f with
    metrics_ := f.metrics_.mapValues fun other =>
      if other.1 = metric then collectedObject clock other else other }

/-- Nothing changes but objects, where they are. -/
structure Same (f f' : Family k) : Prop where
  name : f'.name_ = f.name_
  help : f'.help_ = f.help_
  constant_labels : f'.constant_labels_ = f.constant_labels_
  addresses : f'.addresses = f.addresses

theorem same_call {f f' : Family k} {metric : Ptr} {call : k.Call}
    (h : f.callObject metric call = some f') : Same f f' := by
  obtain ⟨entry, -, hmore⟩ := Option.bind_eq_some_iff.mp h
  obtain ⟨object, -, hf'⟩ := Option.bind_eq_some_iff.mp hmore
  rw [← Option.some.inj hf']
  refine ⟨rfl, rfl, rfl, addresses_mapValues f fun other => ?_⟩
  split
  · rename_i heq
    exact heq.symm
  · rfl

theorem same_collectObject (f : Family k) (clock : Ptr → Nat → Int) (metric : Ptr) :
    Same f (f.collectObject clock metric) := by
  refine ⟨rfl, rfl, rfl, addresses_mapValues f fun other => ?_⟩
  split <;> rfl

theorem Same.inv {f f' : Family k} (h : Same f f') (hf : Inv f) : Inv f' where
  name := h.name ▸ hf.name
  constant_labels := h.constant_labels ▸ hf.constant_labels
  allowed a ha := by
    have hallowed := hf.allowed a (h.addresses ▸ ha)
    rwa [LabelsAllowed, h.constant_labels]
  nonnull a ha := hf.nonnull a (h.addresses ▸ ha)
  distinct := h.addresses ▸ hf.distinct

theorem step_constant_labels {f f' : Family k} (h : Step f f') :
    f'.constant_labels_ = f.constant_labels_ := by
  cases h with
  | add labels p object constructed nonnull fresh =>
      rcases add_cases f labels (p, object) with ⟨stored, -, hadd⟩ | ⟨e, -, -, hadd⟩ |
        ⟨-, -, f', hadd, rfl, -⟩ <;> rw [hadd]
  | remove metric => rfl
  | call metric call done => exact (same_call done).constant_labels
  | collect iteration clock done =>
      unfold Family.collect at done
      split at done
      · rw [← Option.some.inj done]
      · obtain ⟨metric, -, hr⟩ := Option.bind_eq_some_iff.mp done
        rw [← Option.some.inj hr]

/-- The entry of an address. -/
theorem Inv.entry_unique {f : Family k} (h : Inv f) {entry entry' : Labels × Ptr × k.Object}
    (he : entry ∈ f.metrics_.entries) (he' : entry' ∈ f.metrics_.entries)
    (heq : entry.2.1 = entry'.2.1) : entry = entry' :=
  List.inj_on_of_nodup_map h.distinct_owners he he' heq

/-- An object that is not taken out stays in its place: it is as before, or as the call on it has
left it. -/
theorem Does.object {f f' : Family k} {op : Op k} (h : f.Does op f') (hf : Inv f) {labels : Labels}
    {a : Ptr} {x : k.Object} (hx : (labels, a, x) ∈ f.metrics_.entries) (hkept : op ≠ .remove a) :
    ∃ y, (labels, a, y) ∈ f'.metrics_.entries ∧
      ((∀ call, op ≠ .call a call) ∧ y = x ∨
        ∃ call, op = .call a call ∧ MetricKind.call call x = some y) := by
  cases h with
  | add labels' p object constructed nonnull fresh =>
      refine ⟨x, ?_, .inl ⟨(fun _ heq => by cases heq), rfl⟩⟩
      rcases add_cases f labels' (p, object) with ⟨stored, -, hadd⟩ | ⟨e, -, -, hadd⟩ |
        ⟨-, -, f', hadd, -, hentries⟩
      · rwa [hadd]
      · rwa [hadd]
      · rw [hadd, hentries]
        exact List.mem_append_left _ hx
  | remove metric =>
      refine ⟨x, ?_, .inl ⟨(fun _ heq => by cases heq), rfl⟩⟩
      have hne : a ≠ metric := fun heq => hkept (heq ▸ rfl)
      exact (List.mem_eraseP_of_neg (by simpa using hne)).mpr hx
  | call metric call done =>
      obtain ⟨found, hfound, hmore⟩ := Option.bind_eq_some_iff.mp done
      obtain ⟨object, hobject, hf'⟩ := Option.bind_eq_some_iff.mp hmore
      have hfound' := List.find?_some hfound
      have haddress : found.2.1 = metric := eq_of_beq hfound'
      rw [← Option.some.inj hf']
      by_cases heq : a = metric
      · subst heq
        have hentry : found = (labels, a, x) :=
          hf.entry_unique (List.mem_of_find?_eq_some hfound) hx haddress
        rw [hentry] at hobject
        refine ⟨object, ?_, .inr ⟨call, rfl, hobject⟩⟩
        have hmem := UnorderedMap.mem_mapValues hx fun other =>
          if other.1 = a then (a, object) else other
        rwa [if_pos rfl] at hmem
      · refine ⟨x, ?_, .inl ⟨fun call' hop => heq (Op.call.inj hop).1.symm, rfl⟩⟩
        have hmem := UnorderedMap.mem_mapValues hx fun other =>
          if other.1 = metric then (metric, object) else other
        rwa [if_neg heq] at hmem

theorem mem_collectObject {f : Family k} (clock : Ptr → Nat → Int) {labels : Labels} {a : Ptr}
    {x : k.Object} (hx : (labels, a, x) ∈ f.metrics_.entries) (metric : Ptr) :
    (labels, a, if a = metric then (collectedObject clock (a, x)).2 else x) ∈
      (f.collectObject clock metric).metrics_.entries := by
  have hmem := UnorderedMap.mem_mapValues hx fun other =>
    if other.1 = metric then collectedObject clock other else other
  by_cases heq : a = metric
  · rwa [if_pos heq] at hmem ⊢
  · rwa [if_neg heq] at hmem ⊢

/-- A family of one object without labels. -/
def single (name help : Bytes) (p : Ptr) (object : k.Object) : Family k where
  metrics_ := ⟨[(.empty, p, object)], List.nodup_singleton _⟩
  name_ := name
  help_ := help
  constant_labels_ := .empty

end Family

namespace Registry

/-! ## A scrape and the other threads -/

/-- Where the thread in `Collect` is. It holds the lock of the registry, and in a family that of the
family too; `left` are the families it has yet to go to, `metrics` what its walk has yet to meet. -/
inductive Place where
  | outside
  | collectAll (left : List (MetricKind × Ptr)) (results : List MetricFamily)
  | familyCollect (family : MetricKind × Ptr) (metrics : List (Labels × Ptr))
      (collected : MetricFamily) (left : List (MetricKind × Ptr)) (results : List MetricFamily)

def Place.locked : Place → Option (MetricKind × Ptr)
  | .familyCollect family _ _ _ _ => some family
  | _ => none

/-- The calls, and the results of a scrape when it returns. -/
inductive Event where
  | add (k : MetricKind) (name help : Bytes) (labels : Labels) (address : Ptr)
  | remove (k : MetricKind) (family : Ptr)
  | family {k : MetricKind} (p : Ptr) (op : Family.Op k)
  | collect (results : List MetricFamily)

structure Shared where
  registry : Registry
  place : Place

/-- The families by address, in the order in which they are collected. -/
def order (r : Registry) : List (MetricKind × Ptr) :=
  kinds.flatMap fun k => (r.getFamilies k).map fun entry => (k, entry.1)

/-- One step of the scrape, or a call of another thread that finds the locks it needs free. -/
inductive Shared.Step : Shared → Option Event → Shared → Prop
  | add {r : Registry} (k : MetricKind) (name help : Bytes) (labels : Labels) (address : Ptr)
      (fresh : ∀ k', ∀ entry ∈ r.getFamilies k', entry.1 ≠ address) :
      Step ⟨r, .outside⟩ (some (.add k name help labels address))
        ⟨(r.add k name help labels address).2, .outside⟩
  | remove {r : Registry} (k : MetricKind) (family : Ptr) :
      Step ⟨r, .outside⟩ (some (.remove k family)) ⟨(r.remove k family).2, .outside⟩
  | family {r : Registry} {place : Place} {k : MetricKind} {before after : Families k} {p : Ptr}
      {op : Family.Op k} {f f' : Family k} (registered : r.getFamilies k = before ++ (p, f) :: after)
      (taken : f.Does op f') (free : op.locks = true → place.locked ≠ some (k, p)) :
      Step ⟨r, place⟩ (some (.family p op)) ⟨r.setFamilies k (before ++ (p, f') :: after), place⟩
  | lock {r : Registry} : Step ⟨r, .outside⟩ none ⟨r, .collectAll r.order []⟩
  | empty {r : Registry} {k : MetricKind} {p : Ptr} {f : Family k} {left : List (MetricKind × Ptr)}
      {results : List MetricFamily} (registered : (p, f) ∈ r.getFamilies k)
      (empty : f.metrics_.entries.isEmpty = true) :
      Step ⟨r, .collectAll ((k, p) :: left) results⟩ none ⟨r, .collectAll left results⟩
  | enter {r : Registry} {k : MetricKind} {p : Ptr} {f : Family k} {left : List (MetricKind × Ptr)}
      {results : List MetricFamily} (registered : (p, f) ∈ r.getFamilies k)
      (nonempty : f.metrics_.entries.isEmpty = false) (iteration : f.metrics_.Iteration) :
      Step ⟨r, .collectAll ((k, p) :: left) results⟩ none
        ⟨r, .familyCollect (k, p) (iteration.order.map fun entry => (entry.1, entry.2.1))
          { name := f.name_, help := f.help_, type := k.metricType, metric := [] } left results⟩
  | collectMetric {r : Registry} {k : MetricKind} {before after : Families k} {p : Ptr}
      {f : Family k} {labels : Labels} {a : Ptr} {object : k.Object} {metrics : List (Labels × Ptr)}
      {collected : MetricFamily} {left : List (MetricKind × Ptr)} {results : List MetricFamily}
      {clock : Ptr → Nat → Int} {metric : ClientMetric}
      (registered : r.getFamilies k = before ++ (p, f) :: after)
      (stored : (labels, a, object) ∈ f.metrics_.entries)
      (done : f.collectMetric clock (labels, a, object) = some metric) :
      Step ⟨r, .familyCollect (k, p) ((labels, a) :: metrics) collected left results⟩ none
        ⟨r.setFamilies k (before ++ (p, f.collectObject clock a) :: after),
          .familyCollect (k, p) metrics { collected with metric := collected.metric ++ [metric] }
            left results⟩
  | leave {r : Registry} {family : MetricKind × Ptr} {collected : MetricFamily}
      {left : List (MetricKind × Ptr)} {results : List MetricFamily} :
      Step ⟨r, .familyCollect family [] collected left results⟩ none
        ⟨r, .collectAll left (results ++ [collected])⟩
  | unlock {r : Registry} {results : List MetricFamily} :
      Step ⟨r, .collectAll [] results⟩ (some (.collect results)) ⟨r, .outside⟩

/-! ## Families where they are -/

/-- Which family has which name, in the order in which they are collected. -/
def identities (r : Registry) : List ((MetricKind × Ptr) × Bytes) :=
  kinds.flatMap fun k => (r.getFamilies k).map fun entry => ((k, entry.1), entry.2.name_)

theorem order_eq (r : Registry) : r.order = r.identities.map Prod.fst := by
  simp only [order, identities, List.map_flatMap, List.map_map, Function.comp_def]

theorem names_eq (r : Registry) : r.names = r.identities.map Prod.snd := by
  rw [names, identities, List.map_flatMap]
  exact List.flatMap_congr fun k _ => by rw [List.map_map]; rfl

theorem mem_order {r : Registry} {k : MetricKind} {p : Ptr} {f : Family k}
    (h : (p, f) ∈ r.getFamilies k) : (k, p) ∈ r.order :=
  List.mem_flatMap.mpr ⟨k, mem_kinds k, List.mem_map.mpr ⟨(p, f), h, rfl⟩⟩

theorem Inv.family_unique {r : Registry} (h : Inv r) {k : MetricKind} {p : Ptr} {f g : Family k}
    (hf : (p, f) ∈ r.getFamilies k) (hg : (p, g) ∈ r.getFamilies k) : f = g :=
  (Prod.mk.inj (List.inj_on_of_nodup_map (h.addresses k) hf hg rfl)).2

theorem Inv.nodup_order {r : Registry} (h : r.Inv) : r.order.Nodup := by
  have hkinds : kinds.Nodup := by decide
  rw [order, List.nodup_flatMap]
  constructor
  · intro k _
    have haddresses := (h.addresses k).map (Prod.mk_right_injective k)
    rwa [List.map_map] at haddresses
  · refine hkinds.imp fun {k k'} hne q hq hq' => hne ?_
    obtain ⟨entry, -, rfl⟩ := List.mem_map.mp hq
    obtain ⟨entry', -, heq⟩ := List.mem_map.mp hq'
    exact (Prod.mk.inj heq).1.symm

section Replace

variable {r : Registry} {k : MetricKind} {before after : Families k} {p : Ptr} {f f' : Family k}
  (registered : r.getFamilies k = before ++ (p, f) :: after)

include registered

theorem mem_registered : (p, f) ∈ r.getFamilies k := by
  rw [registered]
  exact List.mem_append_right _ List.mem_cons_self

omit registered in
theorem mem_replaced : (p, f') ∈ (r.setFamilies k (before ++ (p, f') :: after)).getFamilies k := by
  rw [getFamilies_setFamilies]
  exact List.mem_append_right _ List.mem_cons_self

theorem mem_replaced_of_ne {k' : MetricKind} {q : Ptr} {g : Family k'} (hne : (k', q) ≠ (k, p))
    (hg : (q, g) ∈ r.getFamilies k') :
    (q, g) ∈ (r.setFamilies k (before ++ (p, f') :: after)).getFamilies k' := by
  by_cases hk : k' = k
  · subst hk
    rw [getFamilies_setFamilies]
    rw [registered] at hg
    rcases List.mem_append.mp hg with hbefore | hmore
    · exact List.mem_append_left _ hbefore
    · rcases List.mem_cons.mp hmore with heq | hafter
      · exact absurd (congrArg (Prod.mk k') (Prod.mk.inj heq).1) hne
      · exact List.mem_append_right _ (List.mem_cons_of_mem _ hafter)
  · rwa [getFamilies_setFamilies_of_ne r hk]

theorem identities_replaced (hname : f'.name_ = f.name_) :
    (r.setFamilies k (before ++ (p, f') :: after)).identities = r.identities := by
  have hmap : ∀ k', ((r.setFamilies k (before ++ (p, f') :: after)).getFamilies k').map
      (fun entry => ((k', entry.1), entry.2.name_)) =
        (r.getFamilies k').map fun entry => ((k', entry.1), entry.2.name_) := by
    apply forall_setFamilies (P := fun k' families =>
      families.map (fun entry => ((k', entry.1), entry.2.name_)) =
        (r.getFamilies k').map fun entry => ((k', entry.1), entry.2.name_))
    · rw [registered, List.map_append, List.map_cons, List.map_append, List.map_cons, hname]
    · exact fun k' _ => rfl
  simp only [identities, hmap]

theorem Inv.replaced (h : Inv r) (hsame : Family.Same f f') :
    Inv (r.setFamilies k (before ++ (p, f') :: after)) := by
  have hf : Family.Inv f := h.families k (p, f) (mem_registered registered)
  apply h.of_identity
  · apply forall_setFamilies (P := fun k' families =>
      families.map identity = (r.getFamilies k').map identity)
    · rw [registered, List.map_append, List.map_cons, List.map_append, List.map_cons, identity,
        identity, hsame.name]
    · exact fun k' _ => rfl
  · apply forall_setFamilies (P := fun _ families => ∀ entry ∈ families, entry.2.Inv)
    · have hold := h.families k
      rw [registered] at hold
      exact forall_mem_replace hold fun _ => hsame.inv hf
    · exact fun k' _ => h.families k'

end Replace

/-! ## No name and no label set twice -/

/-- What a reader of a scrape relies on in each family. -/
structure Sound (family : MetricFamily) : Prop where
  named : WellNamed family
  nonempty : family.metric ≠ []
  labels : ∀ metric ∈ family.metric, (metric.label.map ClientMetric.Label.name).Nodup
  metrics : family.metric.Pairwise fun m m' => ¬ ∀ label, label ∈ m.label ↔ label ∈ m'.label

/-- The walk over a family's map has met some of the entries, and has the rest to meet. -/
structure Walking {k : MetricKind} (f : Family k) (metrics : List (Labels × Ptr))
    (collected : MetricFamily) : Prop where
  name : collected.name = f.name_
  help : collected.help = f.help_
  type : collected.type = k.metricType
  nonempty : f.addresses ≠ []
  met : ∃ met : List (Labels × Ptr), (met ++ metrics).Perm f.addresses ∧
    collected.metric.map ClientMetric.label = met.map fun a => f.exposedLabels a.1

section Walking

variable {k : MetricKind} {f f' : Family k} {metrics : List (Labels × Ptr)} {collected : MetricFamily}

theorem Walking.same (h : Walking f metrics collected) (hsame : Family.Same f f') :
    Walking f' metrics collected where
  name := h.name.trans hsame.name.symm
  help := h.help.trans hsame.help.symm
  type := h.type
  nonempty := hsame.addresses ▸ h.nonempty
  met := by
    obtain ⟨met, hperm, hlabels⟩ := h.met
    refine ⟨met, hsame.addresses ▸ hperm, hlabels.trans ?_⟩
    simp only [Family.exposedLabels, hsame.constant_labels]

theorem walking_start (nonempty : f.metrics_.entries.isEmpty = false)
    (iteration : f.metrics_.Iteration) :
    Walking f (iteration.order.map fun entry => (entry.1, entry.2.1))
      { name := f.name_, help := f.help_, type := k.metricType, metric := [] } where
  name := rfl
  help := rfl
  type := rfl
  nonempty hnil := by
    rw [List.map_eq_nil_iff.mp hnil] at nonempty
    cases nonempty
  met := ⟨[], iteration.perm.map _, rfl⟩

theorem Walking.next {labels : Labels} {a : Ptr} (h : Walking f ((labels, a) :: metrics) collected)
    {metric : ClientMetric} (hlabel : metric.label = f.exposedLabels labels) :
    Walking f metrics { collected with metric := collected.metric ++ [metric] } where
  name := h.name
  help := h.help
  type := h.type
  nonempty := h.nonempty
  met := by
    obtain ⟨met, hperm, hlabels⟩ := h.met
    refine ⟨met ++ [(labels, a)], by rwa [List.append_assoc], ?_⟩
    rw [List.map_append, List.map_append, hlabels, List.map_singleton, List.map_singleton, hlabel]

/-- What the walk meets is stored. -/
theorem Walking.stored {labels : Labels} {a : Ptr}
    (h : Walking f ((labels, a) :: metrics) collected) :
    ∃ object, (labels, a, object) ∈ f.metrics_.entries := by
  obtain ⟨met, hperm, -⟩ := h.met
  have hmem : (labels, a) ∈ f.addresses :=
    hperm.mem_iff.mp (List.mem_append_right _ List.mem_cons_self)
  obtain ⟨⟨key, object⟩, hentry, heq⟩ := List.mem_map.mp hmem
  obtain ⟨rfl, rfl⟩ := Prod.mk.inj heq
  exact ⟨object.2, hentry⟩

theorem Walking.sound (h : Walking f [] collected) (hf : Family.Inv f) : Sound collected := by
  obtain ⟨met, hperm, hlabels⟩ := h.met
  rw [List.append_nil] at hperm
  -- The labels of a collected metric are those exposed for an entry.
  have hmet : ∀ metric ∈ collected.metric, ∃ a ∈ f.addresses,
      metric.label = f.exposedLabels a.1 := by
    intro metric hmetric
    have hmem : metric.label ∈ collected.metric.map ClientMetric.label := List.mem_map_of_mem hmetric
    rw [hlabels] at hmem
    obtain ⟨a, ha, heq⟩ := List.mem_map.mp hmem
    exact ⟨a, hperm.mem_iff.mp ha, heq.symm⟩
  have hkeys : (met.map Prod.fst).Nodup := by
    rw [(hperm.map Prod.fst).nodup_iff, Family.addresses, List.map_map]
    exact f.metrics_.nodup
  refine ⟨⟨h.name ▸ hf.name, ?_⟩, ?_, ?_, ?_⟩
  · intro metric hmetric label hlabel
    obtain ⟨a, ha, heq⟩ := hmet metric hmetric
    rw [heq] at hlabel
    obtain ⟨pair, hpair, rfl⟩ := List.mem_map.mp hlabel
    rw [h.type]
    rcases List.mem_append.mp hpair with hconstant | hown
    · exact hf.constant_labels pair hconstant
    · exact (hf.allowed a ha pair hown).1
  · intro hnil
    rw [hnil, List.map_nil] at hlabels
    rw [List.map_eq_nil_iff.mp hlabels.symm] at hperm
    exact h.nonempty hperm.nil_eq.symm
  · intro metric hmetric
    obtain ⟨a, ha, heq⟩ := hmet metric hmetric
    obtain ⟨entry, hentry, rfl⟩ := List.mem_map.mp ha
    rw [heq]
    exact hf.nodup_exposedLabels (UnorderedMap.mem_keys_of_mem hentry)
  · have hpairwise : (met.map fun a => f.exposedLabels a.1).Pairwise
        fun l l' => ¬ ∀ label, label ∈ l ↔ label ∈ l' := by
      rw [List.pairwise_map]
      rw [List.Nodup, List.pairwise_map] at hkeys
      refine hkeys.imp_of_mem fun {a b} ha hb hne hsame => hne ?_
      exact Family.eq_of_exposedLabels_iff (hf.allowed a (hperm.mem_iff.mp ha))
        (hf.allowed b (hperm.mem_iff.mp hb)) hsame
    rwa [← hlabels, List.pairwise_map] at hpairwise

end Walking

/-- The results are of some of the families that have been done, in their order. -/
structure Results (done : List ((MetricKind × Ptr) × Bytes)) (results : List MetricFamily) : Prop where
  names : (results.map MetricFamily.name).Sublist (done.map Prod.snd)
  sound : ∀ family ∈ results, Sound family

/-- Where the scrape is in the families of the registry. -/
def Place.Keeps (r : Registry) : Place → Prop
  | .outside => True
  | .collectAll left results => ∃ done rest, r.identities = done ++ rest ∧
    left = rest.map Prod.fst ∧ Results done results
  | .familyCollect (k, p) metrics collected left results => ∃ done rest, ∃ f : Family k,
    r.identities = done ++ ((k, p), f.name_) :: rest ∧ left = rest.map Prod.fst ∧
      Results done results ∧ (p, f) ∈ r.getFamilies k ∧ Walking f metrics collected

structure Shared.Inv (s : Shared) : Prop where
  registry : s.registry.Inv
  place : s.place.Keeps s.registry

/-- Another thread may be in the family that is walked, but only to call an object. -/
theorem Place.Keeps.family {r : Registry} {place : Place} (h : place.Keeps r) (hinv : r.Inv)
    {k : MetricKind} {before after : Families k} {p : Ptr} {op : Family.Op k} {f f' : Family k}
    (registered : r.getFamilies k = before ++ (p, f) :: after) (taken : f.Does op f')
    (free : op.locks = true → place.locked ≠ some (k, p)) :
    place.Keeps (r.setFamilies k (before ++ (p, f') :: after)) := by
  have hidentities := identities_replaced registered (Family.step_name taken.step)
  cases place with
  | outside => trivial
  | collectAll left results =>
      obtain ⟨done, rest, hdone⟩ := h
      exact ⟨done, rest, hidentities.trans hdone.1, hdone.2⟩
  | familyCollect family metrics collected left results =>
      obtain ⟨k₁, p₁⟩ := family
      obtain ⟨done, rest, g, hdone, hleft, hresults, hg, hwalking⟩ := h
      by_cases heq : (k₁, p₁) = (k, p)
      · obtain ⟨rfl, rfl⟩ := Prod.mk.inj heq
        obtain rfl : g = f := hinv.family_unique hg (mem_registered registered)
        have hsame : Family.Same g f' := by
          cases taken with
          | add labels p object constructed nonnull fresh => exact absurd rfl (free rfl)
          | remove metric => exact absurd rfl (free rfl)
          | call metric call done => exact Family.same_call done
        exact ⟨done, rest, f', by rw [hidentities, hdone, hsame.name], hleft, hresults, mem_replaced,
          hwalking.same hsame⟩
      · exact ⟨done, rest, g, hidentities.trans hdone, hleft, hresults,
          mem_replaced_of_ne registered heq hg, hwalking⟩

theorem mem_identities {r : Registry} {k : MetricKind} {p : Ptr} {name : Bytes}
    (h : ((k, p), name) ∈ r.identities) : ∃ f, (p, f) ∈ r.getFamilies k ∧ f.name_ = name := by
  obtain ⟨k', -, hmem⟩ := List.mem_flatMap.mp h
  obtain ⟨entry, hentry, heq⟩ := List.mem_map.mp hmem
  obtain ⟨hplace, rfl⟩ := Prod.mk.inj heq
  obtain ⟨rfl, rfl⟩ := Prod.mk.inj hplace
  exact ⟨entry.2, hentry, rfl⟩

/-- The next family to go to is there, under its name. -/
theorem Inv.next {r : Registry} (h : Inv r) {k : MetricKind} {p : Ptr} {f : Family k}
    {left : List (MetricKind × Ptr)} {done rest : List ((MetricKind × Ptr) × Bytes)}
    (hf : (p, f) ∈ r.getFamilies k) (hdone : r.identities = done ++ rest)
    (hleft : (k, p) :: left = rest.map Prod.fst) :
    ∃ rest', rest = ((k, p), f.name_) :: rest' ∧ left = rest'.map Prod.fst := by
  cases rest with
  | nil => cases hleft
  | cons first rest' =>
      obtain ⟨hfirst, hleft'⟩ := List.cons.inj hleft
      obtain ⟨place, name⟩ := first
      obtain rfl : (k, p) = place := hfirst
      have hmem : ((k, p), name) ∈ r.identities := by
        rw [hdone]
        exact List.mem_append_right _ List.mem_cons_self
      obtain ⟨g, hg, hname⟩ := mem_identities hmem
      obtain rfl : f = g := h.family_unique hf hg
      exact ⟨rest', by rw [hname], hleft'⟩

theorem Shared.Inv.step {s s' : Shared} {o : Option Event} (h : s.Inv) (taken : s.Step o s') :
    s'.Inv := by
  obtain ⟨hregistry, hplace⟩ := h
  cases taken with
  | add k name help labels address fresh =>
      exact ⟨hregistry.step (.add k name help labels address fresh), trivial⟩
  | remove k family => exact ⟨hregistry.step (.remove k family), trivial⟩
  | family registered taken free =>
      exact ⟨hregistry.step (.family registered taken.step),
        hplace.family hregistry registered taken free⟩
  | lock => exact ⟨hregistry, [], _, rfl, order_eq _, List.nil_sublist _, fun _ h => by cases h⟩
  | empty registered empty =>
      obtain ⟨done, rest, hdone, hleft, hresults⟩ := hplace
      obtain ⟨rest', rfl, hleft'⟩ := hregistry.next registered hdone hleft
      refine ⟨hregistry, done ++ [_], rest', by rw [hdone, List.append_assoc]; rfl, hleft', ?_,
        hresults.sound⟩
      rw [List.map_append]
      exact hresults.names.trans (List.sublist_append_left _ _)
  | enter registered nonempty iteration =>
      obtain ⟨done, rest, hdone, hleft, hresults⟩ := hplace
      obtain ⟨rest', rfl, hleft'⟩ := hregistry.next registered hdone hleft
      exact ⟨hregistry, done, rest', _, hdone, hleft', hresults, registered,
        walking_start nonempty iteration⟩
  | @collectMetric r k before after p f labels a object metrics collected left results clock metric
      registered stored done =>
      obtain ⟨done', rest, g, hdone, hleft, hresults, hg, hwalking⟩ := hplace
      obtain rfl : g = f := hregistry.family_unique hg (mem_registered registered)
      have hsame := Family.same_collectObject g clock a
      have hinv := hregistry.families k (p, g) hg
      obtain ⟨collected', object', hcollect, hmetric⟩ :=
        (Family.collectMetric_exposes hinv stored done).1
      have hlabel : metric.label = g.exposedLabels labels := by rw [hmetric]
      refine ⟨hregistry.replaced registered hsame, done', rest, g.collectObject clock a, ?_, hleft,
        hresults, mem_replaced, (hwalking.next hlabel).same hsame⟩
      rw [identities_replaced registered hsame.name, hdone, hsame.name]
  | @leave r family collected left results =>
      obtain ⟨k, p⟩ := family
      obtain ⟨done, rest, f, hdone, hleft, hresults, hf, hwalking⟩ := hplace
      refine ⟨hregistry, done ++ [((k, p), f.name_)], rest, by rw [hdone, List.append_assoc]; rfl, hleft,
        ?_, ?_⟩
      · rw [List.map_append, List.map_append, List.map_singleton, List.map_singleton, hwalking.name]
        exact hresults.names.append (List.Sublist.refl _)
      · rw [List.forall_mem_append]
        exact ⟨hresults.sound, List.forall_mem_singleton.mpr
          (hwalking.sound (hregistry.families k (p, f) hf))⟩
  | unlock => exact ⟨hregistry, trivial⟩

theorem Shared.inv_new (insert_behavior : InsertBehavior) :
    Shared.Inv ⟨new insert_behavior, .outside⟩ := ⟨Registry.inv_new insert_behavior, trivial⟩

theorem Shared.Inv.run {s s' : Shared} {es : List Event} (h : s.Inv) (hrun : Run Step s es s') :
    s'.Inv := hrun.invariant h fun _ _ _ hinv taken => hinv.step taken

theorem Shared.Inv.sound {r : Registry} {results : List MetricFamily}
    (h : Shared.Inv ⟨r, .collectAll [] results⟩) :
    (results.map MetricFamily.name).Nodup ∧ ∀ family ∈ results, Sound family := by
  obtain ⟨done, rest, hdone, -, hresults⟩ := h.place
  have hnames := h.registry.contract.names_distinct
  rw [names_eq, hdone, List.map_append] at hnames
  exact ⟨hresults.names.nodup (List.nodup_append.mp hnames).1, hresults.sound⟩

/-- Every scrape in every run of any threads has no two families of one name, and no two metrics
with the same labels in a family; all names are valid and no family is empty. -/
theorem scrape_sound {insert_behavior : InsertBehavior} {es : List Event} {s : Shared}
    (h : Run Shared.Step ⟨new insert_behavior, .outside⟩ es s) {results : List MetricFamily}
    (hresults : .collect results ∈ es) :
    (results.map MetricFamily.name).Nodup ∧ ∀ family ∈ results, Sound family := by
  obtain ⟨before, after, rfl⟩ := List.append_of_mem hresults
  obtain ⟨m, m', hbefore, hstep, -⟩ := h.split
  have hinv := (Shared.inv_new insert_behavior).run hbefore
  cases hstep with
  | unlock => exact hinv.sound

/-- A family of one counter. -/
def upFamily (counter : Counter) : Family .counter := .single (ascii "up") [] 2 counter

def up (counter : Counter) : Registry where
  insert_behavior_ := .merge
  counters_ := [(1, upFamily counter)]

/-- The family is registered, and the counter added to it. -/
def upEvents : List Event :=
  [.add .counter (ascii "up") [] .empty 1, .family (k := .counter) 1 (.add .empty 2 ({} : Counter))]

theorem run_up : Run Shared.Step ⟨new .merge, .outside⟩ upEvents ⟨up {}, .outside⟩ := by
  have hadded : Shared.Step ⟨new .merge, .outside⟩ (some (.add .counter (ascii "up") [] .empty 1)) _ :=
    .add .counter (ascii "up") [] .empty 1 fun k => by
      cases k <;> exact fun _ hentry => absurd hentry List.not_mem_nil
  let empty : Family .counter :=
    { metrics_ := .empty, name_ := ascii "up", help_ := [], constant_labels_ := .empty }
  have hregistered : ((new .merge).add .counter (ascii "up") [] .empty 1).2.getFamilies .counter =
      [] ++ (1, empty) :: [] := rfl
  have hadd : empty.Does (.add .empty 2 ({} : Counter)) (empty.add .empty (2, ({} : Counter))).2 :=
    .add .empty 2 _ .counter (by decide) fun _ hentry => absurd hentry List.not_mem_nil
  exact .visible (.visible .init hadded) (.family hregistered hadd fun _ => by decide)

/-- The call of another thread while the scrape is on its way to the family. -/
def incremented : Event := .family (k := .counter) 1 (.call 2 .counterIncrement)

def scraped (counter : Counter) : List MetricFamily :=
  [⟨ascii "up", [], .counter, [counter.collect]⟩]

theorem run_incremented (counter : Counter) : Run Shared.Step ⟨up counter, .outside⟩
    [incremented, .collect (scraped counter.increment)] ⟨up counter.increment, .outside⟩ := by
  have hregistered : ∀ c, (up c).getFamilies .counter = [] ++ (1, upFamily c) :: [] := fun _ => rfl
  have hcalled : Run Shared.Step ⟨up counter, .outside⟩ [incremented]
      ⟨up counter.increment, .collectAll [(.counter, 1)] []⟩ :=
    .visible (.silent .init .lock) (.family (hregistered counter) (.call 2 .counterIncrement rfl)
      fun hlocks => absurd hlocks Bool.false_ne_true)
  have hentered := hcalled.silent (.enter (mem_registered (hregistered _)) rfl ⟨_, .refl _⟩)
  have hcollected : (upFamily counter.increment).collectMetric (fun _ _ => 0)
      (.empty, 2, counter.increment) = some counter.increment.collect := rfl
  have hmet := hentered.silent (.collectMetric (hregistered _) List.mem_cons_self hcollected)
  exact .visible (hmet.silent .leave) .unlock

/-- A family of two counters with labels. -/
def hitsFamily (a b : Counter) : Family .counter where
  metrics_ := ⟨[(Family.pathLabel "/a", 2, a), (Family.pathLabel "/b", 3, b)],
    (by decide : [Family.pathLabel "/a", Family.pathLabel "/b"].Nodup)⟩
  name_ := ascii "hits"
  help_ := []
  constant_labels_ := .empty

def loadFamily (load : Gauge) : Family .gauge := .single (ascii "load") [] 5 load

def site (a b : Counter) (load : Gauge) : Registry where
  insert_behavior_ := .merge
  counters_ := [(1, hitsFamily a b)]
  gauges_ := [(4, loadFamily load)]

def siteEvents : List Event :=
  [.add .counter (ascii "hits") [] .empty 1,
    .family (k := .counter) 1 (.add (Family.pathLabel "/a") 2 ({} : Counter)),
    .family (k := .counter) 1 (.add (Family.pathLabel "/b") 3 ({} : Counter)),
    .add .gauge (ascii "load") [] .empty 4, .family (k := .gauge) 4 (.add .empty 5 ({} : Gauge))]

theorem run_site : Run Shared.Step ⟨new .merge, .outside⟩ siteEvents ⟨site {} {} {}, .outside⟩ := by
  let noHits : Family .counter :=
    { metrics_ := .empty, name_ := ascii "hits", help_ := [], constant_labels_ := .empty }
  let oneHit : Family .counter := (noHits.add (Family.pathLabel "/a") (2, {})).2
  let noLoad : Family .gauge :=
    { metrics_ := .empty, name_ := ascii "load", help_ := [], constant_labels_ := .empty }
  let hits (f : Family .counter) (gauges : Families .gauge) : Registry :=
    { insert_behavior_ := .merge, counters_ := [(1, f)], gauges_ := gauges }
  have hhits : Shared.Step ⟨new .merge, .outside⟩ (some (.add .counter (ascii "hits") [] .empty 1))
      ⟨hits noHits [], .outside⟩ :=
    .add .counter (ascii "hits") [] .empty 1 fun k => by
      cases k <;> exact fun _ hentry => absurd hentry List.not_mem_nil
  have ha : noHits.Does (.add (Family.pathLabel "/a") 2 ({} : Counter)) oneHit :=
    .add _ 2 _ .counter (by decide) fun _ hentry => absurd hentry List.not_mem_nil
  have hb : oneHit.Does (.add (Family.pathLabel "/b") 3 ({} : Counter)) (hitsFamily {} {}) :=
    .add _ 3 _ .counter (by decide) fun entry hentry => by
      obtain rfl : entry = (Family.pathLabel "/a", 2, {}) := List.mem_singleton.mp hentry
      decide
  have hload : Shared.Step ⟨hits (hitsFamily {} {}) [], .outside⟩
      (some (.add .gauge (ascii "load") [] .empty 4)) ⟨hits (hitsFamily {} {}) [(4, noLoad)], .outside⟩ :=
    .add .gauge (ascii "load") [] .empty 4 fun k entry hentry => by
      cases k with
      | counter =>
          obtain rfl := List.mem_singleton.mp hentry
          decide
      | _ => exact absurd hentry List.not_mem_nil
  have hc : noLoad.Does (.add .empty 5 ({} : Gauge)) (loadFamily {}) :=
    .add _ 5 _ (.gauge 0) (by decide) fun _ hentry => absurd hentry List.not_mem_nil
  have hcounters : ∀ f gauges, (hits f gauges).getFamilies .counter = [] ++ (1, f) :: [] :=
    fun _ _ => rfl
  have hgauges : ∀ f g, (hits f [(4, g)]).getFamilies .gauge = [] ++ (4, g) :: [] := fun _ _ => rfl
  have hhit := (Run.init.visible hhits).visible (.family (hcounters _ _) ha fun _ => nofun)
  have hboth := hhit.visible (.family (hcounters _ _) hb fun _ => nofun)
  exact (hboth.visible hload).visible (.family (hgauges _ _) hc fun _ => nofun)

/-- What a scrape reads. -/
def siteScraped (a b : Counter) (load : Gauge) : List MetricFamily :=
  [⟨ascii "hits", [], .counter,
      [{ a.collect with label := [⟨ascii "path", ascii "/a"⟩] },
        { b.collect with label := [⟨ascii "path", ascii "/b"⟩] }]⟩,
    ⟨ascii "load", [], .gauge, [load.collect]⟩]

/-- The call of another thread when the first counter has been read. -/
def hit : Event := .family (k := .counter) 1 (.call 3 .counterIncrement)

/-- The scrape is between the two counters. -/
def betweenHits (a : Counter) : Place :=
  .familyCollect (.counter, 1) [(Family.pathLabel "/b", 3)]
    ⟨ascii "hits", [], .counter, [{ a.collect with label := [⟨ascii "path", ascii "/a"⟩] }]⟩
    [(.gauge, 4)] []

theorem run_hit (a b : Counter) (load : Gauge) : Run Shared.Step ⟨site a b load, .outside⟩ [hit]
    ⟨site a b.increment load, betweenHits a⟩ := by
  have hregistered : (site a b load).getFamilies .counter = [] ++ (1, hitsFamily a b) :: [] := rfl
  have hcollected : (hitsFamily a b).collectMetric (fun _ _ => 0) (Family.pathLabel "/a", 2, a) =
      some { a.collect with label := [⟨ascii "path", ascii "/a"⟩] } := rfl
  have hlocked : Run Shared.Step ⟨site a b load, .outside⟩ [] _ := .silent .init .lock
  have hmet := (hlocked.silent (.enter (mem_registered hregistered) rfl ⟨_, .refl _⟩)).silent
    (.collectMetric hregistered List.mem_cons_self hcollected)
  exact hmet.visible (.family hregistered (.call 3 .counterIncrement rfl)
    fun hlocks => absurd hlocks Bool.false_ne_true)

theorem run_scraped (a b : Counter) (load : Gauge) : Run Shared.Step ⟨site a b load, .outside⟩
    [hit, .collect (siteScraped a b.increment load)] ⟨site a b.increment load, .outside⟩ := by
  have hcounters : (site a b.increment load).getFamilies .counter =
      [] ++ (1, hitsFamily a b.increment) :: [] := rfl
  have hgauges : (site a b.increment load).getFamilies .gauge = [] ++ (4, loadFamily load) :: [] := rfl
  have hb : (hitsFamily a b.increment).collectMetric (fun _ _ => 0)
      (Family.pathLabel "/b", 3, b.increment) =
        some { b.increment.collect with label := [⟨ascii "path", ascii "/b"⟩] } := rfl
  have hc : (loadFamily load).collectMetric (fun _ _ => 0) (.empty, 5, load) = some load.collect := rfl
  have hleft := ((run_hit a b load).silent (.collectMetric hcounters
    (List.mem_cons_of_mem _ List.mem_cons_self) hb)).silent .leave
  have hloaded := ((hleft.silent (.enter (mem_registered hgauges) rfl ⟨_, .refl _⟩)).silent
    (.collectMetric hgauges List.mem_cons_self hc)).silent .leave
  exact hloaded.visible .unlock

theorem scrape_sound_of_two :
    ((siteScraped {} (Counter.increment {}) {}).map MetricFamily.name).Nodup ∧
      ∀ family ∈ siteScraped {} (Counter.increment {}) {}, Sound family :=
  scrape_sound (run_site.trans (run_scraped {} {} {}))
    (List.mem_append_right _ (List.mem_cons_of_mem _ List.mem_cons_self))

/-! ## What holds of the objects -/

section Objects

variable {P : (k : MetricKind) → k.Object → Prop}

def Holds (P : (k : MetricKind) → k.Object → Prop) (r : Registry) : Prop :=
  ∀ k, ∀ entry ∈ r.getFamilies k, ∀ metric ∈ entry.2.metrics_.entries, P k metric.2.2

theorem Holds.setFamilies {r : Registry} (h : Holds P r) {k : MetricKind} {families : Families k}
    (hk : ∀ entry ∈ families, ∀ metric ∈ entry.2.metrics_.entries, P k metric.2.2) :
    Holds P (r.setFamilies k families) :=
  forall_setFamilies (P := fun k families => ∀ entry ∈ families,
    ∀ metric ∈ entry.2.metrics_.entries, P k metric.2.2) hk fun k' _ => h k'

theorem Holds.replaced {r : Registry} (h : Holds P r) {k : MetricKind} {before after : Families k}
    {p : Ptr} {f f' : Family k} (registered : r.getFamilies k = before ++ (p, f) :: after)
    (hf : (∀ metric ∈ f.metrics_.entries, P k metric.2.2) →
      ∀ metric ∈ f'.metrics_.entries, P k metric.2.2) :
    Holds P (r.setFamilies k (before ++ (p, f') :: after)) := by
  have hold := h k
  rw [registered] at hold
  exact h.setFamilies (forall_mem_replace hold hf)

/-- What constructed objects have and methods keep, all objects have in every run. -/
theorem Shared.objects (hkept : ∀ k, Family.Kept (P k)) {insert_behavior : InsertBehavior}
    {es : List Event} {s : Shared}
    (h : Run Shared.Step ⟨new insert_behavior, .outside⟩ es s) : Holds P s.registry := by
  have hnew : Holds P (new insert_behavior) := fun k entry hentry => by
    cases k <;> exact absurd hentry List.not_mem_nil
  refine h.invariant (P := fun s => Holds P s.registry) hnew fun s o s' hs taken => ?_
  cases taken with
  | @add r k name help labels address fresh =>
      show Holds P (r.add k name help labels address).2
      rcases add_cases r k name help labels address with ⟨-, e, hadd⟩ |
        ⟨-, q, g, -, -, ⟨-, -, hadd⟩ | ⟨-, e, hadd⟩⟩ | ⟨-, e, -, hadd⟩ | ⟨-, g, hg, hadd⟩
      · rwa [hadd]
      · rwa [hadd]
      · rwa [hadd]
      · rwa [hadd]
      · rw [hadd]
        refine Holds.setFamilies hs (List.forall_mem_append.mpr ⟨hs k, ?_⟩)
        obtain ⟨-, -, rfl⟩ := Family.new_eq_ok hg
        exact List.forall_mem_singleton.mpr fun _ hmetric => absurd hmetric List.not_mem_nil
  | @remove r k family =>
      show Holds P (r.remove k family).2
      rcases remove_cases r k family with ⟨-, hremove⟩ | ⟨-, hremove⟩
      · rwa [hremove]
      · rw [hremove]
        exact Holds.setFamilies hs fun entry hentry => hs k entry (List.eraseP_subset hentry)
  | family registered taken free => exact Holds.replaced hs registered ((hkept _).step taken.step)
  | lock => exact hs
  | empty registered empty => exact hs
  | enter registered nonempty iteration => exact hs
  | @collectMetric r k before after p f labels a object metrics collected left results clock metric
      registered stored done =>
      refine Holds.replaced hs registered fun hf entry hentry => ?_
      obtain ⟨old, hold, rfl⟩ := List.mem_map.mp hentry
      dsimp only
      split_ifs
      · show P k (Family.collectedObject clock old.2).2
        unfold Family.collectedObject
        cases hcollect : k.collect (clock old.2.1) old.2.2 with
        | none => exact hf old hold
        | some result => exact (hkept k).collect _ _ result hcollect (hf old hold)
      · exact hf old hold
  | leave => exact hs
  | unlock => exact hs

end Objects

/-! ## A scrape goes on -/

/-- What the scrape goes to next is there, and it has a next step; where it is at an object that
reads `clock`, unless that does not return. -/
def Shared.Proceeds (clock : Ptr → Nat → Int) (s : Shared) : Prop :=
  match s.place with
  | .outside => ∃ s', s.Step none s'
  | .collectAll [] results => ∃ s', s.Step (some (.collect results)) s'
  | .collectAll ((k, p) :: _) _ => (∃ f, (p, f) ∈ s.registry.getFamilies k) ∧ ∃ s', s.Step none s'
  | .familyCollect _ [] _ _ _ => ∃ s', s.Step none s'
  | .familyCollect (k, p) ((labels, a) :: metrics) collected left results =>
    ∃ f, (p, f) ∈ s.registry.getFamilies k ∧
      ∃ object, (labels, a, object) ∈ f.metrics_.entries ∧
        (k.collect (clock a) object = none ∨
          ∃ metric registry, f.collectMetric clock (labels, a, object) = some metric ∧
            s.Step none ⟨registry, .familyCollect (k, p) metrics
              { collected with metric := collected.metric ++ [metric] } left results⟩)

/-- Whatever the other threads have done, a scrape finds the families and the metrics it goes to,
and can go on unless the object it is at does not return. -/
theorem scrape_proceeds {insert_behavior : InsertBehavior} {es : List Event} {s : Shared}
    (h : Run Shared.Step ⟨new insert_behavior, .outside⟩ es s) (clock : Ptr → Nat → Int) :
    s.Proceeds clock := by
  obtain ⟨hregistry, hkeeps⟩ := (Shared.inv_new insert_behavior).run h
  obtain ⟨r, place⟩ := s
  cases place with
  | outside => exact ⟨_, .lock⟩
  | collectAll left results =>
      cases left with
      | nil => exact ⟨_, .unlock⟩
      | cons family left =>
          obtain ⟨k, p⟩ := family
          obtain ⟨done, rest, hdone, hleft, -⟩ := hkeeps
          cases rest with
          | nil => cases hleft
          | cons first rest =>
              obtain ⟨place, name⟩ := first
              obtain rfl : (k, p) = place := (List.cons.inj hleft).1
              have hmem : ((k, p), name) ∈ r.identities :=
                hdone ▸ List.mem_append_right _ List.mem_cons_self
              obtain ⟨f, hf, -⟩ := mem_identities hmem
              refine ⟨⟨f, hf⟩, ?_⟩
              cases hempty : f.metrics_.entries.isEmpty with
              | true => exact ⟨_, .empty hf hempty⟩
              | false => exact ⟨_, .enter hf hempty ⟨f.metrics_.entries, .refl _⟩⟩
  | familyCollect family metrics collected left results =>
      obtain ⟨k, p⟩ := family
      cases metrics with
      | nil => exact ⟨_, .leave⟩
      | cons metric metrics =>
          obtain ⟨labels, a⟩ := metric
          obtain ⟨-, -, f, -, -, -, hf, hwalking⟩ := hkeeps
          obtain ⟨object, hobject⟩ := hwalking.stored
          refine ⟨f, hf, object, hobject, ?_⟩
          cases hcollect : k.collect (clock a) object with
          | none => exact .inl rfl
          | some result =>
              obtain ⟨before, after, registered⟩ := List.append_of_mem hf
              have hmetric : ∃ m, f.collectMetric clock (labels, a, object) = some m := by
                rw [Family.collectMetric, hcollect]
                exact ⟨_, rfl⟩
              obtain ⟨m, hm⟩ := hmetric
              exact .inr ⟨m, _, hm, .collectMetric registered hobject hm⟩

/-- Another thread has incremented the second counter when the first one has been read. -/
theorem scrape_proceeds_of_hit :
    Shared.Proceeds (fun _ _ => 0) ⟨site {} (Counter.increment {}) {}, betweenHits {}⟩ :=
  scrape_proceeds (run_site.trans (run_hit {} {} {})) _

end Registry

end PrometheusCpp
