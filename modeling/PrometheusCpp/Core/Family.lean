/-
# PrometheusCpp.Core.Family -- the store of one metric family, `family.cc`

A family owns the objects of one metric, one for each label set. `Add` inserts first and looks at
the labels afterwards, only when the set is new; a failed check erases the entry again. Objects are
known to the callers by their addresses, and a call with the address of an object is one on the
entry that owns it. Every reachable family keeps its label sets allowed and its objects apart
(`Reachable.inv`), and a collect of it is one metric for each entry.
-/
import PrometheusCpp.Core.Metric
import PrometheusCpp.Lib.UnorderedMap
import PrometheusCpp.Lib.RelatedLists

namespace PrometheusCpp

open ByteString

/-- The address of an object. -/
abbrev Ptr := Nat

def nullptr : Ptr := 0

/-! ## The code -/

/-- `Family<T>`; an entry of `metrics_` owns an object at an address. -/
structure Family (k : MetricKind) where
  metrics_ : UnorderedMap Labels (Ptr × k.Object)
  name_ : Bytes
  help_ : Bytes
  constant_labels_ : Labels

namespace Family

def new (k : MetricKind) (name help : Bytes) (constant_labels : Labels) :
    Except Exception (Family k) :=
  if !checkMetricName name then .error (.invalidArgument "Invalid metric name")
  else if constant_labels.entries.any fun label => !checkLabelName label.1 k.metricType then
    .error (.invalidArgument "Invalid label name")
  else
    .ok { metrics_ := .empty, name_ := name, help_ := help, constant_labels_ := constant_labels }

/-- The loop of `Add` over the labels of a new entry, up to the exception it throws. -/
def checkLabels (type : MetricType) (constant_labels : Labels) :
    List (Bytes × Bytes) → Except Exception Unit
  | [] => .ok ()
  | (label_name, _) :: rest =>
    if !checkLabelName label_name type then .error (.invalidArgument "Invalid label name")
    else if constant_labels.count label_name ≠ 0 then
      .error (.invalidArgument "Duplicate label name")
    else checkLabels type constant_labels rest

variable {k : MetricKind}

/-- The family is returned with the result, as an exception does not undo what was done. -/
def add (f : Family k) (labels : Labels) (object : Ptr × k.Object) :
    Except Exception Ptr × Family k :=
  let (metrics, inserted) := f.metrics_.emplace labels object
  let checked := if inserted then checkLabels k.metricType f.constant_labels_ labels.entries
    else .ok ()
  match checked with
  -- The handler takes the entry out again and rethrows.
  | .error e => (.error e, { f with metrics_ := metrics.erase labels })
  | .ok () =>
    (.ok (((metrics.find? labels).map Prod.fst).getD nullptr), { f with metrics_ := metrics })

def remove (f : Family k) (metric : Ptr) : Family k :=
  { f with metrics_ := f.metrics_.eraseValue fun object => object.1 == metric }

def has (f : Family k) (labels : Labels) : Bool := (f.metrics_.find? labels).isSome

/-- `clock` are the readings that the object at each address makes. -/
def collectMetric (f : Family k) (clock : Ptr → Nat → Int)
    (entry : Labels × Ptr × k.Object) : Option ClientMetric := do
  let (collected, _) ← k.collect (clock entry.2.1) entry.2.2
  some { collected with
    label := collected.label ++
      (f.constant_labels_.entries ++ entry.1.entries).map fun label => ⟨label.1, label.2⟩ }

/-- What is left of an object that has been collected. -/
def collectedObject (clock : Ptr → Nat → Int) (object : Ptr × k.Object) : Ptr × k.Object :=
  (object.1, ((k.collect (clock object.1) object.2).map Prod.snd).getD object.2)

def collect (f : Family k) (iteration : f.metrics_.Iteration) (clock : Ptr → Nat → Int) :
    Option (List MetricFamily × Family k) :=
  -- A family without metrics is left out.
  if f.metrics_.entries.isEmpty then some ([], f)
  else do
    let metric ← iteration.order.mapM (f.collectMetric clock)
    some ([{ name := f.name_, help := f.help_, type := k.metricType, metric }],
      { f with metrics_ := f.metrics_.mapValues (collectedObject clock) })

/-- A method call on the object at an address, which has to be that of a stored one. -/
def callObject (f : Family k) (metric : Ptr) (call : k.Call) : Option (Family k) := do
  let entry ← f.metrics_.entries.find? fun entry => entry.2.1 == metric
  let object ← MetricKind.call call entry.2.2
  some { f with
    metrics_ := f.metrics_.mapValues fun other =>
      if other.1 = metric then (metric, object) else other }

/-! ## Reachable families -/

/-- What can happen to a family. An object handed to `Add` has just been constructed, so its address
is that of no stored object, and it is not null. -/
inductive Step : Family k → Family k → Prop
  | add {f : Family k} (labels : Labels) (p : Ptr) (object : k.Object)
      (constructed : k.Constructed object) (nonnull : p ≠ nullptr)
      (fresh : ∀ entry ∈ f.metrics_.entries, entry.2.1 ≠ p) :
      Step f (f.add labels (p, object)).2
  | remove {f : Family k} (metric : Ptr) : Step f (f.remove metric)
  | call {f f' : Family k} (metric : Ptr) (call : k.Call) (done : f.callObject metric call = some f') :
      Step f f'
  | collect {f : Family k} (iteration : f.metrics_.Iteration) (clock : Ptr → Nat → Int)
      {r : List MetricFamily × Family k} (done : f.collect iteration clock = some r) : Step f r.2

inductive Reachable (name help : Bytes) (constant_labels : Labels) : Family k → Prop
  | new {f : Family k} (done : Family.new k name help constant_labels = .ok f) :
      Reachable name help constant_labels f
  | step {f f' : Family k} (reached : Reachable name help constant_labels f) (taken : Step f f') :
      Reachable name help constant_labels f'

/-! ## The checks -/

/-- Every name passes the check for the type and is not that of a constant label. -/
def LabelsAllowed (f : Family k) (labels : Labels) : Prop :=
  ∀ label ∈ labels.entries, checkLabelName label.1 k.metricType = true ∧
    label.1 ∉ f.constant_labels_.entries.map Prod.fst

theorem checkLabels_ok_iff (type : MetricType) (constant_labels : Labels)
    (entries : List (Bytes × Bytes)) :
    checkLabels type constant_labels entries = .ok () ↔
      ∀ label ∈ entries, checkLabelName label.1 type = true ∧
        label.1 ∉ constant_labels.entries.map Prod.fst := by
  induction entries with
  | nil => simp [checkLabels]
  | cons label rest ih =>
      obtain ⟨name, value⟩ := label
      rw [checkLabels, List.forall_mem_cons, ← ih, ← Labels.count_ne_zero_iff]
      by_cases hname : checkLabelName name type = true
      · by_cases hcount : constant_labels.count name = 0
        · simp [hname, hcount]
        · simp [hname, hcount]
      · simp [hname]

/-- The label checks run over exactly the new label sets that are not allowed. -/
theorem checkLabels_error_iff (f : Family k) (labels : Labels) :
    (∃ e, checkLabels k.metricType f.constant_labels_ labels.entries = .error e) ↔
      ¬ f.LabelsAllowed labels := by
  have hiff := checkLabels_ok_iff k.metricType f.constant_labels_ labels.entries
  cases h : checkLabels k.metricType f.constant_labels_ labels.entries with
  | error e =>
      rw [h] at hiff
      simp only [reduceCtorEq, false_iff] at hiff
      exact ⟨fun _ => hiff, fun _ => ⟨e, rfl⟩⟩
  | ok u =>
      rw [h] at hiff
      refine ⟨fun he => ?_, fun hnot => absurd (hiff.mp rfl) hnot⟩
      obtain ⟨e, he⟩ := he
      cases he

theorem new_eq_ok {name help : Bytes} {constant_labels : Labels} {f : Family k}
    (h : new k name help constant_labels = .ok f) :
    checkMetricName name = true ∧
      (∀ label ∈ constant_labels.entries, checkLabelName label.1 k.metricType = true) ∧
      f = { metrics_ := .empty, name_ := name, help_ := help,
            constant_labels_ := constant_labels } := by
  unfold new at h
  split at h
  · cases h
  · rename_i hname
    split at h
    · cases h
    · rename_i hlabels
      refine ⟨by simpa using hname, ?_, (Except.ok.inj h).symm⟩
      simpa using hlabels

/-- The constructor throws exactly on an invalid name of the family or of a constant label. -/
theorem new_error_iff (k : MetricKind) (name help : Bytes) (constant_labels : Labels) :
    (∃ e, new k name help constant_labels = .error e) ↔
      checkMetricName name = false ∨
        ∃ label ∈ constant_labels.entries, checkLabelName label.1 k.metricType = false := by
  unfold new
  by_cases hname : checkMetricName name = true
  · by_cases hlabels : (constant_labels.entries.any
        fun label => !checkLabelName label.1 k.metricType) = true
    · rw [if_neg (by simpa using hname), if_pos hlabels]
      simpa [hname] using hlabels
    · rw [if_neg (by simpa using hname), if_neg hlabels]
      simpa [hname] using hlabels
  · rw [if_pos (by simpa using hname)]
    simp [hname]

/-! ## What the operations do -/

theorem add_of_stored {f : Family k} {labels : Labels} {p : Ptr} {object : k.Object}
    (h : (labels, p, object) ∈ f.metrics_.entries) (new : Ptr × k.Object) :
    f.add labels new = (.ok p, f) := by
  unfold add
  rw [UnorderedMap.emplace_of_mem (UnorderedMap.mem_keys_of_mem h)]
  simp [UnorderedMap.find?_eq_some.mpr h]

theorem add_of_error {f : Family k} {labels : Labels} (hnew : labels ∉ f.metrics_.keys)
    {e : Exception} (he : checkLabels k.metricType f.constant_labels_ labels.entries = .error e)
    (object : Ptr × k.Object) : f.add labels object = (.error e, f) := by
  unfold add
  simp only [(UnorderedMap.emplace_of_not_mem hnew object).1, if_true, he,
    UnorderedMap.erase_emplace hnew]

theorem add_of_allowed {f : Family k} {labels : Labels} (hnew : labels ∉ f.metrics_.keys)
    (hallowed : f.LabelsAllowed labels) (object : Ptr × k.Object) :
    ∃ f', f.add labels object = (.ok object.1, f') ∧
      f' = { f with metrics_ := (f.metrics_.emplace labels object).1 } ∧
      f'.metrics_.entries = f.metrics_.entries ++ [(labels, object)] := by
  obtain ⟨hinserted, hentries⟩ := UnorderedMap.emplace_of_not_mem hnew object
  have hchecked : checkLabels k.metricType f.constant_labels_ labels.entries = .ok () :=
    (checkLabels_ok_iff _ _ _).mpr hallowed
  have hfind : (f.metrics_.emplace labels object).1.find? labels = some object :=
    UnorderedMap.find?_eq_some.mpr (by rw [hentries]; simp)
  refine ⟨_, ?_, rfl, hentries⟩
  unfold add
  simp only [hinserted, if_true, hchecked, hfind, Option.map_some, Option.getD_some]

/-- An `Add` finds the label set, or throws and changes nothing, or appends the new object. -/
theorem add_cases (f : Family k) (labels : Labels) (object : Ptr × k.Object) :
    (∃ stored, (labels, stored) ∈ f.metrics_.entries ∧ f.add labels object = (.ok stored.1, f)) ∨
    (∃ e, labels ∉ f.metrics_.keys ∧ ¬ f.LabelsAllowed labels ∧
      f.add labels object = (.error e, f)) ∨
    (labels ∉ f.metrics_.keys ∧ f.LabelsAllowed labels ∧ ∃ f', f.add labels object = (.ok object.1, f') ∧
      f' = { f with metrics_ := (f.metrics_.emplace labels object).1 } ∧
      f'.metrics_.entries = f.metrics_.entries ++ [(labels, object)]) := by
  by_cases hstored : labels ∈ f.metrics_.keys
  · obtain ⟨⟨key, stored⟩, hmem, rfl⟩ := List.mem_map.mp hstored
    exact .inl ⟨stored, hmem, add_of_stored hmem object⟩
  · by_cases hallowed : f.LabelsAllowed labels
    · exact .inr (.inr ⟨hstored, hallowed, add_of_allowed hstored hallowed object⟩)
    · obtain ⟨e, he⟩ := (checkLabels_error_iff f labels).mpr hallowed
      exact .inr (.inl ⟨e, hstored, hallowed, add_of_error hstored he object⟩)

/-! ## The invariant -/

/-- Which label set has its object where. -/
def addresses (f : Family k) : List (Labels × Ptr) := f.metrics_.entries.map fun e => (e.1, e.2.1)

/-- Label sets are allowed, and no two of them own the same object. -/
structure Inv (f : Family k) : Prop where
  name : checkMetricName f.name_ = true
  constant_labels :
    ∀ label ∈ f.constant_labels_.entries, checkLabelName label.1 k.metricType = true
  allowed : ∀ a ∈ f.addresses, f.LabelsAllowed a.1
  nonnull : ∀ a ∈ f.addresses, a.2 ≠ nullptr
  distinct : (f.addresses.map Prod.snd).Nodup

section Inv

variable {f f' : Family k}

/-- Losing entries, and changing objects where they are, keeps the invariant. -/
theorem Inv.of_sublist (h : Inv f) {metrics : UnorderedMap Labels (Ptr × k.Object)}
    (hsub : (metrics.entries.map fun e => (e.1, e.2.1)).Sublist f.addresses) :
    Inv { f with metrics_ := metrics } where
  name := h.name
  constant_labels := h.constant_labels
  allowed a ha := h.allowed a (hsub.subset ha)
  nonnull a ha := h.nonnull a (hsub.subset ha)
  distinct := h.distinct.sublist (hsub.map Prod.snd)

theorem addresses_mapValues (f : Family k) {g : Ptr × k.Object → Ptr × k.Object}
    (hg : ∀ object, (g object).1 = object.1) :
    ((f.metrics_.mapValues g).entries.map fun e => (e.1, e.2.1)) = f.addresses := by
  simp only [UnorderedMap.mapValues, List.map_map, addresses, Function.comp_def, hg]

theorem Inv.new {name help : Bytes} {constant_labels : Labels}
    (h : Family.new k name help constant_labels = .ok f) : Inv f := by
  obtain ⟨hname, hlabels, rfl⟩ := new_eq_ok h
  constructor <;> simp [addresses, UnorderedMap.empty]
  · exact hname
  · simpa using hlabels

theorem Inv.add (h : Inv f) (labels : Labels) {p : Ptr} (object : k.Object) (nonnull : p ≠ nullptr)
    (fresh : ∀ entry ∈ f.metrics_.entries, entry.2.1 ≠ p) : Inv (f.add labels (p, object)).2 := by
  rcases add_cases f labels (p, object) with ⟨stored, -, hadd⟩ | ⟨e, -, -, hadd⟩ |
    ⟨-, hallowed, f', hadd, rfl, hentries⟩
  · rw [hadd]
    exact h
  · rw [hadd]
    exact h
  · rw [hadd]
    have haddresses : Family.addresses
        { f with metrics_ := (f.metrics_.emplace labels (p, object)).1 } =
          f.addresses ++ [(labels, p)] := by
      rw [addresses, hentries, List.map_append]
      rfl
    refine ⟨h.name, h.constant_labels, ?_, ?_, ?_⟩
    · intro a ha
      rcases List.mem_append.mp (haddresses ▸ ha) with hold | hnew
      · exact h.allowed a hold
      · obtain rfl := List.mem_singleton.mp hnew
        exact hallowed
    · intro a ha
      rcases List.mem_append.mp (haddresses ▸ ha) with hold | hnew
      · exact h.nonnull a hold
      · obtain rfl := List.mem_singleton.mp hnew
        exact nonnull
    · rw [haddresses, List.map_append, List.nodup_append]
      refine ⟨h.distinct, List.nodup_singleton _, ?_⟩
      rintro q hq r hr rfl
      obtain rfl : q = p := by simpa using hr
      obtain ⟨a, ha, rfl⟩ := List.mem_map.mp hq
      obtain ⟨entry, hentry, rfl⟩ := List.mem_map.mp ha
      exact fresh entry hentry rfl

theorem Inv.step (h : Inv f) (hstep : Step f f') : Inv f' := by
  cases hstep with
  | add labels p object constructed nonnull fresh => exact h.add labels object nonnull fresh
  | remove metric => exact h.of_sublist (List.eraseP_sublist.map _)
  | call metric call done =>
      obtain ⟨entry, -, hmore⟩ := Option.bind_eq_some_iff.mp done
      obtain ⟨object, -, hf'⟩ := Option.bind_eq_some_iff.mp hmore
      rw [← Option.some.inj hf']
      refine h.of_sublist ?_
      rw [addresses_mapValues f]
      -- The object called is put back at its own address.
      intro other
      split
      · rename_i heq
        exact heq.symm
      · rfl
  | collect iteration clock done =>
      unfold Family.collect at done
      split at done
      · rw [← Option.some.inj done]
        exact h
      · obtain ⟨metric, -, hr⟩ := Option.bind_eq_some_iff.mp done
        rw [← Option.some.inj hr]
        refine h.of_sublist ?_
        rw [addresses_mapValues f (g := collectedObject clock) fun _ => rfl]

theorem Reachable.inv {name help : Bytes} {constant_labels : Labels}
    (h : Reachable name help constant_labels f) : Inv f := by
  induction h with
  | new done => exact Inv.new done
  | step reached taken ih => exact ih.step taken

end Inv

/-! ## What a reachable family guarantees -/

/-- The name can be that of a label of the metric: it has the form of a label name, it is none of
the names kept for the library, and it is not a constant label's. -/
def ValidLabelName (f : Family k) (name : Bytes) : Prop :=
  MatchesName validLabelCharacter name ∧ ¬ StartsReserved name ∧
    reservedLabelName k.metricType ≠ some name ∧ name ∉ f.constant_labels_.entries.map Prod.fst

theorem labelsAllowed_iff (f : Family k) (labels : Labels) :
    f.LabelsAllowed labels ↔ ∀ label ∈ labels.entries, f.ValidLabelName label.1 := by
  simp only [LabelsAllowed, checkLabelName_iff, ValidLabelName, and_assoc]

/-- The labels of a collected metric: those of the family and then its own. -/
def exposedLabels (f : Family k) (labels : Labels) : List ClientMetric.Label :=
  (f.constant_labels_.entries ++ labels.entries).map fun label => ⟨label.1, label.2⟩

/-- The metric collected from an entry. -/
def Exposes (f : Family k) (clock : Ptr → Nat → Int) (entry : Labels × Ptr × k.Object)
    (metric : ClientMetric) : Prop :=
  (∃ collected object, k.collect (clock entry.2.1) entry.2.2 = some (collected, object) ∧
    metric = { collected with label := f.exposedLabels entry.1 }) ∧
  (metric.label.map ClientMetric.Label.name).Nodup

/-- The collected family has one metric for each entry met on the walk, and nothing else. -/
structure Collects (f : Family k) (iteration : f.metrics_.Iteration) (clock : Ptr → Nat → Int)
    (family : MetricFamily) : Prop where
  name : family.name = f.name_
  help : family.help = f.help_
  type : family.type = k.metricType
  metric : List.Forall₂ (f.Exposes clock) iteration.order family.metric

/-- The names of the constant labels and of a stored label set are all different. -/
theorem Inv.nodup_exposedLabels {f : Family k} (h : Inv f) {labels : Labels}
    (hl : labels ∈ f.metrics_.keys) :
    ((f.exposedLabels labels).map ClientMetric.Label.name).Nodup := by
  have hnames : (f.exposedLabels labels).map ClientMetric.Label.name =
      f.constant_labels_.entries.map Prod.fst ++ labels.entries.map Prod.fst := by
    simp only [exposedLabels, List.map_map, List.map_append, Function.comp_def]
  obtain ⟨⟨key, value⟩, hmem, rfl⟩ := List.mem_map.mp hl
  have hallowed := h.allowed (key, value.1) (List.mem_map_of_mem hmem)
  rw [hnames, List.nodup_append]
  refine ⟨Labels.nodup_names _, Labels.nodup_names _, ?_⟩
  rintro name hconstant name' hown rfl
  obtain ⟨label, hlabel, rfl⟩ := List.mem_map.mp hown
  exact (hallowed label hlabel).2 hconstant

/-- No object is owned by two entries. -/
theorem Inv.distinct_owners {f : Family k} (h : Inv f) :
    (f.metrics_.entries.map fun entry => entry.2.1).Nodup := by
  have hdistinct := h.distinct
  rwa [addresses, List.map_map] at hdistinct

/-- Removing what no entry owns does nothing. -/
theorem remove_of_unowned {f : Family k} {metric : Ptr}
    (h : ∀ entry ∈ f.metrics_.entries, entry.2.1 ≠ metric) : f.remove metric = f := by
  have hentries : f.metrics_.entries.eraseP (fun e => e.2.1 == metric) = f.metrics_.entries :=
    List.eraseP_of_forall_not fun e he => by simpa using h e he
  have hmetrics : f.metrics_.eraseValue (fun object => object.1 == metric) = f.metrics_ :=
    UnorderedMap.eq_of_entries hentries
  rw [remove, hmetrics]

/-- A collected metric is what its object collects, under the labels of the family and its own. -/
theorem collectMetric_exposes {f : Family k} (h : Inv f) {clock : Ptr → Nat → Int}
    {entry : Labels × Ptr × k.Object} (hentry : entry ∈ f.metrics_.entries) {metric : ClientMetric}
    (hmetric : f.collectMetric clock entry = some metric) : f.Exposes clock entry metric := by
  obtain ⟨⟨collected, object⟩, hcollect, hr⟩ := Option.bind_eq_some_iff.mp hmetric
  have hlabel : collected.label = [] := MetricKind.collect_label hcollect
  have heq : metric = { collected with label := f.exposedLabels entry.1 } := by
    rw [← Option.some.inj hr]
    simp only [hlabel, List.nil_append, exposedLabels]
  refine ⟨⟨collected, object, hcollect, heq⟩, ?_⟩
  rw [heq]
  exact h.nodup_exposedLabels (UnorderedMap.mem_keys_of_mem hentry)

/-- A family without metrics is left out. -/
theorem collect_of_empty {f : Family k} (h : f.metrics_.entries = [])
    (iteration : f.metrics_.Iteration) (clock : Ptr → Nat → Int) :
    f.collect iteration clock = some ([], f) := by
  rw [collect, if_pos (by rw [h]; rfl)]

/-- Once the objects return, the family has one metric for each of them. -/
theorem Inv.collect_metrics {f : Family k} (h : Inv f) (iteration : f.metrics_.Iteration)
    (clock : Ptr → Nat → Int) (hne : f.metrics_.entries ≠ [])
    (hreturns : ∀ entry ∈ f.metrics_.entries, (k.collect (clock entry.2.1) entry.2.2).isSome) :
    ∃ family f', f.collect iteration clock = some ([family], f') ∧
      f.Collects iteration clock family := by
  have hcollects : ∀ entry ∈ iteration.order, (f.collectMetric clock entry).isSome := by
    intro entry hentry
    obtain ⟨r, hr⟩ := Option.isSome_iff_exists.mp
      (hreturns entry (iteration.perm.mem_iff.mp hentry))
    simp [collectMetric, hr]
  obtain ⟨metric, hmap⟩ := RelatedLists.exists_mapM_eq_some hcollects
  have hall := RelatedLists.mapM_eq_some_iff.mp hmap
  have hstored : ∀ entry ∈ iteration.order, entry ∈ f.metrics_.entries :=
    fun entry hentry => iteration.perm.mem_iff.mp hentry
  let family : MetricFamily := ⟨f.name_, f.help_, k.metricType, metric⟩
  refine ⟨family, { f with metrics_ := f.metrics_.mapValues (collectedObject clock) }, ?_,
    ⟨rfl, rfl, rfl, ?_⟩⟩
  · rw [collect, if_neg (by simpa using hne), hmap]
    rfl
  · have hexposes := (List.forall₂_and_left _ _).mpr ⟨hstored, hall⟩
    exact hexposes.imp fun entry metric hmetric => collectMetric_exposes h hmetric.1 hmetric.2

/-- A collected family has collected each of its objects. -/
theorem returns_of_collect {f : Family k} {iteration : f.metrics_.Iteration}
    {clock : Ptr → Nat → Int} {result : List MetricFamily × Family k}
    (h : f.collect iteration clock = some result) :
    ∀ entry ∈ f.metrics_.entries, (k.collect (clock entry.2.1) entry.2.2).isSome := by
  intro entry hentry
  unfold Family.collect at h
  split at h
  · rename_i hempty
    rw [List.isEmpty_iff.mp hempty] at hentry
    exact absurd hentry List.not_mem_nil
  · obtain ⟨metric, hmap, -⟩ := Option.bind_eq_some_iff.mp h
    obtain ⟨collected, -, hcollected⟩ := RelatedLists.exists_right
      (RelatedLists.mapM_eq_some_iff.mp hmap) (iteration.perm.mem_iff.mpr hentry)
    obtain ⟨pair, hpair, -⟩ := Option.bind_eq_some_iff.mp hcollected
    rw [hpair]
    rfl

end Family

end PrometheusCpp
