/-
# PrometheusCpp.Core.ScrapeReports -- what a scrape says about one metric

A metric that stays where it is is met by every scrape, and is reported exactly once, as the calls
until then have left it (`scrape_reports`). So what one scrape reports comes of what an earlier one
did by calls made in between; in particular a counter does not go back from one scrape to the next
(`scrapes_counter_monotone`).
-/
import PrometheusCpp.Core.GaugeThreads
import PrometheusCpp.Core.ScrapeThreads

namespace PrometheusCpp

open ByteString Linearization TextSerializer

namespace Registry

/-! ## What calls make of an object -/

/-- The event takes the object out, or its family. -/
def Event.Removes (k : MetricKind) (p a : Ptr) : Event → Prop
  | .remove k' p' => k' = k ∧ p' = p
  | @Event.family k' p' (.remove a') => k' = k ∧ p' = p ∧ a' = a
  | _ => False

/-- What the calls on an object make of it, and scrapes that collect it in between. -/
inductive Became {k : MetricKind} (p a : Ptr) (x : k.Object) : List Event → k.Object → Prop
  | start : Became p a x [] x
  | collected {es : List Event} {y : k.Object} {clock : Nat → Int} {result : ClientMetric × k.Object}
      (reached : Became p a x es y) (done : k.collect clock y = some result) :
      Became p a x es result.2
  | other {es : List Event} {y : k.Object} {event : Event} (reached : Became p a x es y)
      (other : ∀ call : k.Call, event ≠ .family p (.call a call)) : Became p a x (es ++ [event]) y
  | call {es : List Event} {y y' : k.Object} {call : k.Call} (reached : Became p a x es y)
      (done : MetricKind.call call y = some y') :
      Became p a x (es ++ [.family p (.call a call)]) y'

section Object

variable {k : MetricKind} {p a : Ptr}

theorem became_other {x : k.Object} {event : Event}
    (h : ∀ call : k.Call, event ≠ .family p (.call a call)) : Became p a x [event] x :=
  Became.start.other h

theorem became_call {x y : k.Object} {call : k.Call} (h : MetricKind.call call x = some y) :
    Became p a x [.family p (.call a call)] y := Became.start.call h

theorem Became.trans {x y z : k.Object} {es es' : List Event} (h : Became p a x es y)
    (h' : Became p a y es' z) : Became p a x (es ++ es') z := by
  induction h' with
  | start => rwa [List.append_nil]
  | collected _ done ih => exact ih.collected done
  | other _ other ih =>
      rw [← List.append_assoc]
      exact ih.other other
  | call _ done ih =>
      rw [← List.append_assoc]
      exact ih.call done

/-- A property that calls and scrapes keep. -/
theorem Became.invariant {P : k.Object → Prop} {x y : k.Object} {es : List Event}
    (h : Became p a x es y) (hx : P x)
    (hcollect : ∀ y clock result, P y → k.collect clock y = some result → P result.2)
    (hcall : ∀ y y' call, .family p (.call a call) ∈ es → P y → MetricKind.call call y = some y' →
      P y') : P y := by
  induction h with
  | start => exact hx
  | collected _ done ih => exact hcollect _ _ _ (ih hcall) done
  | other _ other ih => exact ih fun y y' call hmem => hcall y y' call (List.mem_append_left _ hmem)
  | call _ done ih =>
      exact hcall _ _ _ (List.mem_append_right _ List.mem_cons_self)
        (ih fun y y' call hmem => hcall y y' call (List.mem_append_left _ hmem)) done

theorem became_collectedObject {x : k.Object} (clock : Ptr → Nat → Int) :
    Became p a x [] (Family.collectedObject clock (a, x)).2 := by
  unfold Family.collectedObject
  cases hcollect : k.collect (clock a) x with
  | none => exact .start
  | some result => exact .collected .start hcollect

/-- The object is stored in the family at the address, under the name and the constant labels of
the family given. -/
structure Stores (r : Registry) (f₀ : Family k) (p : Ptr) (labels : Labels) (a : Ptr) (x : k.Object)
    (f : Family k) : Prop where
  registered : (p, f) ∈ r.getFamilies k
  name : f.name_ = f₀.name_
  constant_labels : f.constant_labels_ = f₀.constant_labels_
  stored : (labels, a, x) ∈ f.metrics_.entries

variable {k' : MetricKind} {f₀ : Family k} {labels : Labels}

theorem Stores.mono {r r' : Registry} {x : k.Object} {f : Family k}
    (h : Stores r f₀ p labels a x f) (hmem : (p, f) ∈ r'.getFamilies k) :
    Stores r' f₀ p labels a x f := ⟨hmem, h.name, h.constant_labels, h.stored⟩

theorem Stores.exposedLabels {r : Registry} {x : k.Object} {f : Family k}
    (h : Stores r f₀ p labels a x f) : f.exposedLabels labels = f₀.exposedLabels labels := by
  simp only [Family.exposedLabels, h.constant_labels]

theorem mem_getFamilies_remove {r : Registry} {f : Family k} (hf : (p, f) ∈ r.getFamilies k)
    {k' : MetricKind} {q : Ptr} (hne : ¬ (k' = k ∧ q = p)) :
    (p, f) ∈ (r.remove k' q).2.getFamilies k := by
  rcases remove_cases r k' q with ⟨-, hremove⟩ | ⟨-, hremove⟩
  · rwa [hremove]
  · rw [hremove]
    by_cases hk : k = k'
    · subst hk
      rw [getFamilies_setFamilies]
      have hq : p ≠ q := fun heq => hne ⟨rfl, heq.symm⟩
      exact (List.mem_eraseP_of_neg (by simpa using hq)).mpr hf
    · rwa [getFamilies_setFamilies_of_ne r hk]

theorem mem_getFamilies_add {r : Registry} {f : Family k} (hf : (p, f) ∈ r.getFamilies k)
    (k' : MetricKind) (name help : Bytes) (labels : Labels) (address : Ptr) :
    (p, f) ∈ (r.add k' name help labels address).2.getFamilies k := by
  rcases add_cases r k' name help labels address with ⟨-, e, hadd⟩ |
    ⟨-, q, g, -, -, ⟨-, -, hadd⟩ | ⟨-, e, hadd⟩⟩ | ⟨-, e, -, hadd⟩ | ⟨-, g, -, hadd⟩
  · rwa [hadd]
  · rwa [hadd]
  · rwa [hadd]
  · rwa [hadd]
  · rw [hadd]
    by_cases hk : k = k'
    · subst hk
      rw [getFamilies_setFamilies]
      exact List.mem_append_left _ hf
    · rwa [getFamilies_setFamilies_of_ne r hk]

/-- An object that is not taken out stays where it is, and is what the call on it makes of it. -/
theorem Shared.Step.object {s s' : Shared} {o : Option Event} (taken : s.Step o s')
    (hinv : s.registry.Inv) {f : Family k} {x : k.Object}
    (h : Stores s.registry f₀ p labels a x f) (hkept : ∀ event ∈ o, ¬ event.Removes k p a) :
    ∃ f' y, Stores s'.registry f₀ p labels a y f' ∧ Became p a x o.toList y := by
  cases taken with
  | add k' name help labels' address fresh =>
      exact ⟨f, x, h.mono (mem_getFamilies_add h.registered k' name help labels' address),
        became_other fun call heq => by cases heq⟩
  | remove k' q =>
      exact ⟨f, x, h.mono (mem_getFamilies_remove h.registered (hkept _ rfl)),
        became_other fun call heq => by cases heq⟩
  | @family r place k' before after q op g g' registered taken free =>
      by_cases heq : (k, p) = (k', q)
      · obtain ⟨rfl, rfl⟩ := Prod.mk.inj heq
        obtain rfl : f = g := hinv.family_unique h.registered (mem_registered registered)
        have hop : op ≠ .remove a := by
          rintro rfl
          exact hkept _ rfl ⟨rfl, rfl, rfl⟩
        obtain ⟨y, hy, hcases⟩ := taken.object (hinv.families k (p, f) h.registered) h.stored hop
        refine ⟨g', y, ⟨mem_replaced, (Family.step_name taken.step).trans h.name,
          (Family.step_constant_labels taken.step).trans h.constant_labels, hy⟩, ?_⟩
        rcases hcases with ⟨hother, rfl⟩ | ⟨call, rfl, hcall⟩
        · refine became_other fun call heq => hother call ?_
          injection heq
        · exact became_call hcall
      · refine ⟨f, x, h.mono (mem_replaced_of_ne registered heq h.registered), ?_⟩
        refine became_other fun call hevent => heq ?_
        injection hevent with hk hp
        rw [hk, hp]
  | lock => exact ⟨f, x, h, .start⟩
  | empty registered empty => exact ⟨f, x, h, .start⟩
  | enter registered nonempty iteration => exact ⟨f, x, h, .start⟩
  | @collectMetric r k' before after q g labels' a' object metrics collected left results clock metric
      registered stored done =>
      by_cases heq : (k, p) = (k', q)
      · obtain ⟨rfl, rfl⟩ := Prod.mk.inj heq
        obtain rfl : f = g := hinv.family_unique h.registered (mem_registered registered)
        refine ⟨f.collectObject clock a', _, ⟨mem_replaced, h.name, h.constant_labels,
          Family.mem_collectObject clock h.stored a'⟩, ?_⟩
        split_ifs
        · exact became_collectedObject clock
        · exact .start
      · exact ⟨f, x, h.mono (mem_replaced_of_ne registered heq h.registered), .start⟩
  | leave => exact ⟨f, x, h, .start⟩
  | unlock => exact ⟨f, x, h, became_other fun call heq => by cases heq⟩

/-! ## Every metric once, as it is then -/

/-- The scrape has yet to meet the metric, or has yet to begin. -/
def Place.Pending (family : MetricKind × Ptr) (metric : Labels × Ptr) : Place → Prop
  | .outside => True
  | .collectAll left _ => family ∈ left
  | .familyCollect family' metrics _ left _ => family ∈ left ∨ family' = family ∧ metric ∈ metrics

/-- The scrape has recorded the metric for a family of the name. -/
def Place.Records (name : Bytes) (metric : ClientMetric) : Place → Prop
  | .outside => False
  | .collectAll _ results => ∃ family ∈ results, family.name = name ∧ metric ∈ family.metric
  | .familyCollect _ _ collected _ results =>
    ∃ family ∈ results ++ [collected], family.name = name ∧ metric ∈ family.metric

/-- The metric is what the object collected when some of the events had happened; what it is since
has come of it. -/
def Seen (p a : Ptr) (label : List ClientMetric.Label) (x : k.Object) (es : List Event)
    (y : k.Object) (metric : ClientMetric) : Prop :=
  ∃ es₁ es₂ z clock result, es = es₁ ++ es₂ ∧ Became p a x es₁ z ∧
    k.collect clock z = some result ∧ metric = { result.1 with label } ∧ Became p a result.2 es₂ y

/-- The metric is what the object collects when the events have happened. -/
def Reads (f : Family k) (p : Ptr) (labels : Labels) (a : Ptr) (x : k.Object) (es : List Event)
    (metric : ClientMetric) : Prop :=
  ∃ y clock result, Became p a x es y ∧ k.collect clock y = some result ∧
    metric = { result.1 with label := f.exposedLabels labels }

theorem Seen.reads {x y : k.Object} {es : List Event} {metric : ClientMetric}
    (h : Seen p a (f₀.exposedLabels labels) x es y metric) :
    ∃ es₁ es₂, es = es₁ ++ es₂ ∧ Reads f₀ p labels a x es₁ metric := by
  obtain ⟨es₁, es₂, z, clock, result, heq, hbecame, hcollect, hmetric, -⟩ := h
  exact ⟨es₁, es₂, heq, z, clock, result, hbecame, hcollect, hmetric⟩

theorem Seen.extend {label : List ClientMetric.Label} {x y z : k.Object} {es es' : List Event}
    {metric : ClientMetric} (h : Seen p a label x es y metric) (h' : Became p a y es' z) :
    Seen p a label x (es ++ es') z metric := by
  obtain ⟨es₁, es₂, w, clock, result, rfl, hbefore, hcollect, hmetric, hafter⟩ := h
  exact ⟨es₁, es₂ ++ es', w, clock, result, List.append_assoc _ _ _, hbefore, hcollect, hmetric,
    hafter.trans h'⟩

/-- Where the metric is in a scrape: the walk will meet it, or has recorded it as it was. -/
def Place.Tracks (f₀ : Family k) (p : Ptr) (labels : Labels) (a : Ptr) (x : k.Object)
    (es : List Event) (y : k.Object) (place : Place) : Prop :=
  place.Pending (k, p) (labels, a) ∨
    ∃ metric, place.Records f₀.name_ metric ∧ Seen p a (f₀.exposedLabels labels) x es y metric

/-- The walk meets the metric: it is recorded as it is, and put back as it is then. -/
theorem tracks_collectMetric {r : Registry} {before after : Families k'} {q : Ptr} {g : Family k'}
    {labels' : Labels} {a' : Ptr} {object : k'.Object} {metrics : List (Labels × Ptr)}
    {collected : MetricFamily} {left : List (MetricKind × Ptr)} {results : List MetricFamily}
    {clock : Ptr → Nat → Int} {metric : ClientMetric} {es : List Event} {x y : k.Object} {f : Family k}
    (hinv : Shared.Inv ⟨r, .familyCollect (k', q) ((labels', a') :: metrics) collected left results⟩)
    (h : Stores r f₀ p labels a y f) (hreached : Became p a x es y)
    (registered : r.getFamilies k' = before ++ (q, g) :: after)
    (stored : (labels', a', object) ∈ g.metrics_.entries)
    (done : g.collectMetric clock (labels', a', object) = some metric)
    (hfamily : (k', q) = (k, p)) (hnow : (labels, a) = (labels', a')) :
    ∃ f' z, Stores (r.setFamilies k' (before ++ (q, g.collectObject clock a') :: after)) f₀ p labels a
        z f' ∧ Became p a x (es ++ Option.toList (none : Option Event)) z ∧
      (Place.familyCollect (k', q) metrics
        { collected with metric := collected.metric ++ [metric] } left results).Tracks f₀ p labels a x
          (es ++ Option.toList (none : Option Event)) z := by
  obtain ⟨rfl, rfl⟩ := Prod.mk.inj hfamily
  obtain ⟨rfl, rfl⟩ := Prod.mk.inj hnow
  obtain rfl : f = g := hinv.registry.family_unique h.registered (mem_registered registered)
  have hf := hinv.registry.families k' (q, f) h.registered
  obtain rfl : y = object :=
    (Prod.mk.inj (Prod.mk.inj (hf.entry_unique h.stored stored rfl)).2).2
  obtain ⟨⟨collected', object', hcollect, hmetric⟩, -⟩ :=
    Family.collectMetric_exposes hf stored done
  have hobject : (Family.collectedObject clock (a, y)).2 = object' := by
    rw [Family.collectedObject, hcollect]
    rfl
  have hstored := Family.mem_collectObject clock h.stored a
  rw [if_pos rfl, hobject] at hstored
  obtain ⟨done', rest, g, -, -, -, hg, hwalking⟩ := hinv.place
  obtain rfl : f = g := hinv.registry.family_unique h.registered hg
  have hlabels := h.exposedLabels
  rw [Option.toList_none, List.append_nil]
  refine ⟨f.collectObject clock a, object', ⟨mem_replaced, h.name, h.constant_labels, hstored⟩,
    hreached.collected hcollect, .inr ⟨metric, ⟨_, List.mem_append_right _ List.mem_cons_self,
      hwalking.name.trans h.name, List.mem_append_right _ List.mem_cons_self⟩, ?_⟩⟩
  exact ⟨es, [], y, clock a, (collected', object'), (List.append_nil es).symm, hreached, hcollect,
    hlabels ▸ hmetric, .start⟩

/-- What has been recorded stays, until the scrape is over. -/
theorem Shared.Step.records {s s' : Shared} {o : Option Event} (taken : s.Step o s') {name : Bytes}
    {metric : ClientMetric} (h : s.place.Records name metric) :
    s'.place = .outside ∨ s'.place.Records name metric := by
  cases taken with
  | add k' name help labels' address fresh => exact .inl rfl
  | remove k' q => exact .inl rfl
  | family registered taken free => exact .inr h
  | lock => exact h.elim
  | empty registered empty => exact .inr h
  | enter registered nonempty iteration =>
      obtain ⟨family, hfamily, hrecords⟩ := h
      exact .inr ⟨family, List.mem_append_left _ hfamily, hrecords⟩
  | collectMetric registered stored done =>
      obtain ⟨family, hfamily, hname, hmetric⟩ := h
      refine .inr ?_
      rcases List.mem_append.mp hfamily with hresults | hcollected
      · exact ⟨family, List.mem_append_left _ hresults, hname, hmetric⟩
      · obtain rfl := List.mem_singleton.mp hcollected
        exact ⟨_, List.mem_append_right _ List.mem_cons_self, hname, List.mem_append_left _ hmetric⟩
  | leave => exact .inr h
  | unlock => exact .inl rfl

/-- What one step does to where the metric is. -/
theorem Shared.Step.tracks {s s' : Shared} {o : Option Event} (taken : s.Step o s') (hinv : s.Inv)
    {es : List Event} {x y : k.Object} {f : Family k} (h : Stores s.registry f₀ p labels a y f)
    (htracks : s.place.Tracks f₀ p labels a x es y) (hreached : Became p a x es y)
    (hkept : ∀ event ∈ o, ¬ event.Removes k p a) :
    ∃ f' y', Stores s'.registry f₀ p labels a y' f' ∧ Became p a x (es ++ o.toList) y' ∧
      s'.place.Tracks f₀ p labels a x (es ++ o.toList) y' := by
  obtain ⟨f', y', hstores, hbecame⟩ := taken.object hinv.registry h hkept
  have hreached' := hreached.trans hbecame
  rcases htracks with hpending | ⟨metric, hrecords, hseen⟩
  · suffices hplace : s'.place.Pending (k, p) (labels, a) ∨ ∃ g z,
        Stores s'.registry f₀ p labels a z g ∧ Became p a x (es ++ o.toList) z ∧
          s'.place.Tracks f₀ p labels a x (es ++ o.toList) z by
      rcases hplace with hpending' | hmet
      · exact ⟨f', y', hstores, hreached', .inl hpending'⟩
      · exact hmet
    cases taken with
    | add k' name help labels' address fresh => exact .inl trivial
    | remove k' q => exact .inl trivial
    | family registered taken free => exact .inl hpending
    | lock => exact .inl (mem_order h.registered)
    | @empty r k' q g left results registered empty =>
        rcases List.mem_cons.mp hpending with heq | hleft
        · -- A family that stores the metric is not empty.
          obtain ⟨rfl, rfl⟩ := Prod.mk.inj heq
          obtain rfl : f = g := hinv.registry.family_unique h.registered registered
          exact absurd h.stored (List.isEmpty_iff.mp empty ▸ List.not_mem_nil)
        · exact .inl hleft
    | @enter r k' q g left results registered nonempty iteration =>
        rcases List.mem_cons.mp hpending with heq | hleft
        · obtain ⟨rfl, rfl⟩ := Prod.mk.inj heq
          obtain rfl : f = g := hinv.registry.family_unique h.registered registered
          exact .inl (.inr ⟨rfl, List.mem_map.mpr ⟨_, iteration.perm.mem_iff.mpr h.stored, rfl⟩⟩)
        · exact .inl (.inl hleft)
    | @collectMetric r k' before after q g labels' a' object metrics collected left results clock metric
        registered stored done =>
        rcases hpending with hleft | ⟨hfamily, hmeets⟩
        · exact .inl (.inl hleft)
        · rcases List.mem_cons.mp hmeets with hnow | hlater
          · exact .inr (tracks_collectMetric hinv h hreached registered stored done hfamily hnow)
          · exact .inl (.inr ⟨hfamily, hlater⟩)
    | leave =>
        rcases hpending with hleft | ⟨-, hmetric⟩
        · exact .inl hleft
        · exact absurd hmetric List.not_mem_nil
    | unlock => exact .inl trivial
  · refine ⟨f', y', hstores, hreached', ?_⟩
    rcases taken.records hrecords with houtside | hrecords'
    · exact .inl (houtside ▸ trivial)
    · exact .inr ⟨metric, hrecords', hseen.extend hbecame⟩

theorem Shared.Inv.tracks {s₀ s : Shared} {es : List Event} (hinv : s₀.Inv)
    (h : Run Shared.Step s₀ es s) {x : k.Object} {f : Family k}
    (hstores : Stores s₀.registry f₀ p labels a x f)
    (htracks : s₀.place.Tracks f₀ p labels a x [] x) (hkept : ∀ event ∈ es, ¬ event.Removes k p a) :
    ∃ f' y, Stores s.registry f₀ p labels a y f' ∧ Became p a x es y ∧
      s.place.Tracks f₀ p labels a x es y := by
  induction h with
  | init => exact ⟨f, x, hstores, .start, htracks⟩
  | silent reached taken ih =>
      obtain ⟨f', y, hstores', hbecame, htracks'⟩ := ih hkept
      obtain ⟨f'', z, hnext⟩ := taken.tracks (hinv.run reached) hstores' htracks' hbecame
        fun event hevent => by cases hevent
      rw [Option.toList_none, List.append_nil] at hnext
      exact ⟨f'', z, hnext⟩
  | @visible es event s s' reached taken ih =>
      obtain ⟨hbefore, hlast⟩ := List.forall_mem_append.mp hkept
      obtain ⟨f', y, hstores', hbecame, htracks'⟩ := ih hbefore
      refine taken.tracks (hinv.run reached) hstores' htracks' hbecame fun event' hevent => ?_
      obtain rfl := Option.mem_some_iff.mp hevent
      exact hlast _ List.mem_cons_self

end Object

/-- What a scrape reports under a name and labels. -/
def reported (results : List MetricFamily) (name : Bytes) (label : List ClientMetric.Label) :
    List ClientMetric :=
  (results.filter fun family => family.name = name).flatMap fun family =>
    family.metric.filter fun metric => metric.label = label

theorem filter_eq_singleton {α β : Type*} [DecidableEq β] {g : α → β} {xs : List α}
    (h : (xs.map g).Nodup) {x : α} (hx : x ∈ xs) : xs.filter (fun y => g y = g x) = [x] := by
  obtain ⟨before, after, rfl⟩ := List.append_of_mem hx
  rw [List.map_append, List.map_cons, List.nodup_middle, List.nodup_cons] at h
  have hother : ∀ y ∈ before ++ after, ¬ decide (g y = g x) = true := by
    intro y hy heq
    refine h.1 ?_
    rw [← of_decide_eq_true heq, ← List.map_append]
    exact List.mem_map_of_mem hy
  obtain ⟨hbefore, hafter⟩ := List.forall_mem_append.mp hother
  rw [List.filter_append, List.filter_cons_of_pos (by simp),
    List.filter_eq_nil_iff.mpr hbefore, List.filter_eq_nil_iff.mpr hafter]
  rfl

theorem reported_eq_singleton {results : List MetricFamily}
    (hnames : (results.map MetricFamily.name).Nodup) {family : MetricFamily}
    (hfamily : family ∈ results) (hsound : Sound family) {metric : ClientMetric}
    (hmetric : metric ∈ family.metric) :
    reported results family.name metric.label = [metric] := by
  have hlabels : (family.metric.map ClientMetric.label).Nodup := by
    rw [List.Nodup, List.pairwise_map]
    exact hsound.metrics.imp fun hne heq => hne fun label => by rw [heq]
  rw [reported, filter_eq_singleton hnames hfamily, List.flatMap_singleton,
    filter_eq_singleton hlabels hmetric]

section Scrapes

variable {insert_behavior : InsertBehavior} {es₀ es₁ es₂ es : List Event} {r₀ : Registry} {s : Shared}
  {results results₁ results₂ : List MetricFamily} {k : MetricKind} {p a : Ptr} {labels : Labels}

theorem reported_of_records {r : Registry} (hinv : Shared.Inv ⟨r, .collectAll [] results⟩)
    {name : Bytes} {metric : ClientMetric} (h : (Place.collectAll [] results).Records name metric) :
    reported results name metric.label = [metric] := by
  obtain ⟨family, hfamily, rfl, hmetric⟩ := h
  obtain ⟨hnames, hsound⟩ := hinv.sound
  exact reported_eq_singleton hnames hfamily (hsound family hfamily) hmetric

theorem Seen.label {label : List ClientMetric.Label} {x y : k.Object} {metric : ClientMetric}
    (h : Seen p a label x es y metric) : metric.label = label := by
  obtain ⟨-, -, -, -, -, -, -, -, rfl, -⟩ := h
  rfl

theorem reports_of_tracks {r : Registry} {f₀ : Family k} {x y : k.Object}
    (hinv : Shared.Inv ⟨r, .collectAll [] results⟩)
    (h : (Place.collectAll [] results).Tracks f₀ p labels a x es y) :
    ∃ metric, Seen p a (f₀.exposedLabels labels) x es y metric ∧
      reported results f₀.name_ (f₀.exposedLabels labels) = [metric] := by
  rcases h with hpending | ⟨metric, hrecords, hseen⟩
  · exact absurd hpending List.not_mem_nil
  · exact ⟨metric, hseen, hseen.label ▸ reported_of_records hinv hrecords⟩

/-- A metric that stays in its place while a scrape is made is reported by it exactly once: as the
object collects after some of the calls that have been made in the meantime. -/
theorem scrape_reports
    (hstart : Run Shared.Step ⟨new insert_behavior, .outside⟩ es₀ ⟨r₀, .outside⟩)
    (h : Run Shared.Step ⟨r₀, .outside⟩ (es ++ [.collect results]) s) {f : Family k} {x : k.Object}
    (hf : (p, f) ∈ r₀.getFamilies k) (hx : (labels, a, x) ∈ f.metrics_.entries)
    (hkept : ∀ event ∈ es, ¬ event.Removes k p a) :
    ∃ metric, reported results f.name_ (f.exposedLabels labels) = [metric] ∧
      ∃ es₁ es₂, es = es₁ ++ es₂ ∧ Reads f p labels a x es₁ metric := by
  have hinv := (Shared.inv_new insert_behavior).run hstart
  obtain ⟨m, m', hbefore, hstep, -⟩ := h.split
  have hstores : Stores r₀ f p labels a x f := ⟨hf, rfl, rfl, hx⟩
  obtain ⟨f', y, -, -, htracks⟩ := hinv.tracks hbefore hstores (.inl trivial) hkept
  cases hstep with
  | unlock =>
      obtain ⟨metric, hseen, hreported⟩ := reports_of_tracks (hinv.run hbefore) htracks
      exact ⟨metric, hreported, hseen.reads⟩

theorem scrape_reports_of_one : ∃ metric,
    reported (scraped (Counter.increment {})) (ascii "up") [] = [metric] ∧
      ∃ es₁ es₂, [incremented] = es₁ ++ es₂ ∧ Reads (upFamily {}) 1 .empty 2 {} es₁ metric := by
  have hrun : Run Shared.Step ⟨up {}, .outside⟩ ([incremented] ++ [.collect _]) ⟨_, .outside⟩ :=
    run_incremented {}
  refine scrape_reports run_up hrun (f := upFamily {}) List.mem_cons_self List.mem_cons_self
    fun event hevent => ?_
  obtain rfl := List.mem_singleton.mp hevent
  exact id

/-! ## Counters -/

/-- The event resets the counter or adds NaN to it. -/
def Event.Lowers (p a : Ptr) (event : Event) : Prop :=
  event = .family p (.call a .counterReset) ∨ event = .family p (.call a (.counterIncrementBy .nan))

/-- A counter is NaN or not negative. -/
def Counts : (k : MetricKind) → k.Object → Prop
  | .counter, counter => counter.value = .nan ∨ Counter.AtLeast (.fin 0) counter.gauge_
  | _, _ => True

theorem counter_call_atLeast {v : Number} {x y : Counter} {call : MetricKind.Call .counter}
    (hx : Counter.AtLeast v x.gauge_) (h : MetricKind.call call x = some y)
    (hreset : call ≠ .counterReset) (hnan : call ≠ .counterIncrementBy .nan) :
    Counter.AtLeast v y.gauge_ := by
  cases call with
  | counterIncrement =>
      obtain rfl : Counter.increment x = y := Option.some.inj h
      have hperforms : Counter.Performs x.gauge_ .increment .done x.increment.gauge_ := rfl
      have hcounts : Counter.Call.counts .increment = true := rfl
      exact Counter.Performs.atLeast hx ⟨hcounts, hperforms⟩
  | counterIncrementBy val =>
      obtain rfl : Counter.incrementBy x val = y := Option.some.inj h
      have hval : val ≠ .nan := fun heq => hnan (heq ▸ rfl)
      have hperforms : Counter.Performs x.gauge_ (.incrementBy val) .done (x.incrementBy val).gauge_ :=
        rfl
      have hcounts : Counter.Call.counts (.incrementBy val) = true := decide_eq_true hval
      exact Counter.Performs.atLeast hx ⟨hcounts, hperforms⟩
  | counterReset => exact absurd rfl hreset

/-- NaN stays, until the counter is reset. -/
theorem counter_call_nan {x y : Counter} {call : MetricKind.Call .counter}
    (hx : x.value = .nan) (h : MetricKind.call call x = some y) (hreset : call ≠ .counterReset) :
    y.value = .nan := by
  have hadd : ∀ val, (x.gauge_.increment val).value_ = .nan := fun val => by
    show x.value + val = .nan
    rw [hx]
    rfl
  cases call with
  | counterIncrement =>
      obtain rfl : Counter.increment x = y := Option.some.inj h
      exact hadd 1
  | counterIncrementBy val =>
      obtain rfl : Counter.incrementBy x val = y := Option.some.inj h
      unfold Counter.incrementBy
      split_ifs
      · exact hx
      · exact hadd val
  | counterReset => exact absurd rfl hreset

theorem counts_call {x y : Counter} {call : MetricKind.Call .counter} (hx : Counts .counter x)
    (h : MetricKind.call call x = some y) : Counts .counter y := by
  by_cases hreset : call = .counterReset
  · subst hreset
    obtain rfl : Counter.reset x = y := Option.some.inj h
    exact .inr ⟨.fin 0, rfl, le_refl _, le_refl _⟩
  rcases hx with hx | hx
  · exact .inl (counter_call_nan hx h hreset)
  by_cases hnan : call = .counterIncrementBy .nan
  · subst hnan
    obtain rfl : Counter.incrementBy x .nan = y := Option.some.inj h
    obtain ⟨v, hv, -⟩ := hx
    refine .inl ?_
    show x.gauge_.value_ + .nan = .nan
    rw [hv]
    cases v <;> rfl
  · exact .inr (counter_call_atLeast hx h hreset hnan)

theorem kept_counts (k : MetricKind) : Family.Kept (Counts k) := by
  cases k with
  | counter =>
      refine ⟨fun object hconstructed => ?_, fun call x y h hx => counts_call hx h,
        fun clock x r h hx => ?_⟩
      · cases hconstructed
        exact .inr ⟨.fin 0, rfl, le_refl _, le_refl _⟩
      · obtain rfl := Option.some.inj h
        exact hx
  | gauge => exact ⟨fun _ _ => trivial, fun _ _ _ _ _ => trivial, fun _ _ _ _ _ => trivial⟩
  | histogram => exact ⟨fun _ _ => trivial, fun _ _ _ _ _ => trivial, fun _ _ _ _ _ => trivial⟩
  | info => exact ⟨fun _ _ => trivial, fun _ _ _ _ _ => trivial, fun _ _ _ _ _ => trivial⟩
  | summary => exact ⟨fun _ _ => trivial, fun _ _ _ _ _ => trivial, fun _ _ _ _ _ => trivial⟩

theorem Became.atLeast {v : Number} {x y : Counter} (h : Became (k := .counter) p a x es y)
    (hx : Counter.AtLeast v x.gauge_) (hlow : ∀ event ∈ es, ¬ event.Lowers p a) :
    Counter.AtLeast v y.gauge_ := by
  refine h.invariant (P := fun x : Counter => Counter.AtLeast v x.gauge_) hx ?_ ?_
  · intro y clock result hy hcollect
    obtain rfl := Option.some.inj hcollect
    exact hy
  · intro y y' call hmem hy hcall
    refine counter_call_atLeast hy hcall ?_ ?_
    · rintro rfl
      exact hlow _ hmem (.inl rfl)
    · rintro rfl
      exact hlow _ hmem (.inr rfl)

/-- A counter that stays in its place and is neither reset nor given NaN is reported once by each
scrape, and not with less by a later one. -/
theorem scrapes_counter_monotone
    (hstart : Run Shared.Step ⟨new insert_behavior, .outside⟩ es₀ ⟨r₀, .outside⟩)
    (h : Run Shared.Step ⟨r₀, .outside⟩
      (es₁ ++ .collect results₁ :: (es₂ ++ [.collect results₂])) s)
    {f : Family .counter} {x : Counter} (hf : (p, f) ∈ r₀.getFamilies .counter)
    (hx : (labels, a, x) ∈ f.metrics_.entries) (hnan : x.value ≠ .nan)
    (hkept : ∀ event ∈ es₁ ++ es₂, ¬ event.Removes .counter p a ∧ ¬ event.Lowers p a) :
    ∃ metric₁ metric₂, reported results₁ f.name_ (f.exposedLabels labels) = [metric₁] ∧
      reported results₂ f.name_ (f.exposedLabels labels) = [metric₂] ∧
        metric₁.counter.le metric₂.counter = true := by
  have hinv := (Shared.inv_new insert_behavior).run hstart
  obtain ⟨hkept₁, hkept₂⟩ := List.forall_mem_append.mp hkept
  obtain ⟨m₁, m₁', hrun₁, hstep₁, hmore⟩ := h.split
  obtain ⟨m₂, m₂', hrun₂, hstep₂, -⟩ := hmore.split
  have hstores : Stores r₀ f p labels a x f := ⟨hf, rfl, rfl, hx⟩
  obtain ⟨f₁, y, hstores₁, -, htracks₁⟩ := hinv.tracks hrun₁ hstores (.inl trivial)
    fun event hevent => (hkept₁ event hevent).1
  have hinv₁ := hinv.run hrun₁
  cases hstep₁ with
  | unlock =>
    obtain ⟨metric₁, ⟨before₁, after₁, z₁, clock₁, result₁, rfl, hz₁, hcollect₁, rfl, hy⟩,
      hreported₁⟩ := reports_of_tracks hinv₁ htracks₁
    have hinv₁' := hinv₁.step .unlock
    obtain ⟨f₂, w, -, -, htracks₂⟩ := hinv₁'.tracks hrun₂ hstores₁ (.inl trivial)
      fun event hevent => (hkept₂ event hevent).1
    cases hstep₂ with
    | unlock =>
      obtain ⟨metric₂, ⟨before₂, after₂, z₂, clock₂, result₂, rfl, hz₂, hcollect₂, rfl, -⟩,
        hreported₂⟩ := reports_of_tracks (hinv₁'.run hrun₂) htracks₂
      obtain rfl := Option.some.inj hcollect₁
      obtain rfl := Option.some.inj hcollect₂
      refine ⟨_, _, hreported₁, hreported₂, ?_⟩
      -- From the first reading on the counter is at least what was read.
      have hzero : Counter.AtLeast (.fin 0) x.gauge_ :=
        (Shared.objects kept_counts hstart .counter _ hf _ hx).resolve_left hnan
      obtain ⟨hlow₁, hlow₁'⟩ := List.forall_mem_append.mp fun event hevent => (hkept₁ event hevent).2
      obtain ⟨hlow₂, -⟩ := List.forall_mem_append.mp fun event hevent => (hkept₂ event hevent).2
      obtain ⟨v, hv, -, hpos⟩ := hz₁.atLeast hzero hlow₁
      have hat : Counter.AtLeast v z₁.gauge_ := ⟨v, hv, hpos, le_refl _⟩
      obtain ⟨u, hu, -, hle⟩ := hz₂.atLeast (hy.atLeast hat hlow₁') hlow₂
      show z₁.gauge_.value_.le z₂.gauge_.value_ = true
      rw [hv, hu]
      exact decide_eq_true hle

theorem scrapes_counter_monotone_of_one : ∃ metric₁ metric₂,
    reported (scraped (Counter.increment {})) (ascii "up") [] = [metric₁] ∧
      reported (scraped (Counter.increment (Counter.increment {}))) (ascii "up") [] = [metric₂] ∧
        metric₁.counter.le metric₂.counter = true := by
  have htwice : Run Shared.Step ⟨up {}, .outside⟩
      ([incremented] ++ .collect _ :: ([incremented] ++ [.collect _])) ⟨_, .outside⟩ :=
    (run_incremented {}).trans (run_incremented (Counter.increment {}))
  refine scrapes_counter_monotone run_up htwice (f := upFamily {}) List.mem_cons_self
    List.mem_cons_self (by decide) fun event hevent => ?_
  obtain rfl : event = incremented := by
    rcases List.mem_cons.mp hevent with h | h
    · exact h
    · exact List.mem_singleton.mp h
  refine ⟨id, fun hlow => ?_⟩
  rcases hlow with h | h <;> cases h

end Scrapes

end Registry

end PrometheusCpp
