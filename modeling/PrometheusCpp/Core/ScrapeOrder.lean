/-
# PrometheusCpp.Core.ScrapeOrder -- what a scrape says about two metrics

A scrape goes through the families in one order: by their types, and within a type as they were
registered. So of two metrics it reads the one of the earlier family first, and whatever it says of
it, all of that has happened when it comes to the other one (`scrape_reports_in_order`).
-/
import PrometheusCpp.Core.ScrapeReports

namespace PrometheusCpp

open ByteString Linearization TextSerializer

namespace Registry

/-! ## From one moment of a scrape to a later one -/

/-- The same scrape goes on: the families are where they were, and what is recorded stays. -/
structure Shared.Later (s s' : Shared) : Prop where
  place : s'.place ≠ .outside
  identities : s'.registry.identities = s.registry.identities
  records : ∀ name metric, s.place.Records name metric → s'.place.Records name metric

theorem Shared.Later.trans {s s' s'' : Shared} (h : s.Later s') (h' : s'.Later s'') : s.Later s'' where
  place := h'.place
  identities := h'.identities.trans h.identities
  records name metric hrecords := h'.records name metric (h.records name metric hrecords)

theorem Shared.Step.later {s s' : Shared} {o : Option Event} (taken : s.Step o s')
    (hplace : s.place ≠ .outside) (hone : ∀ results, o ≠ some (.collect results)) : s.Later s' := by
  have hplace' : s'.place ≠ .outside := by
    cases taken with
    | add k name help labels address fresh => exact absurd rfl hplace
    | remove k family => exact absurd rfl hplace
    | family registered taken free => exact hplace
    | unlock => exact absurd rfl (hone _)
    | _ => exact fun heq => by cases heq
  refine ⟨hplace', ?_, fun name metric h => (taken.records h).resolve_left hplace'⟩
  cases taken with
  | add k name help labels address fresh => exact absurd rfl hplace
  | remove k family => exact absurd rfl hplace
  | family registered taken free =>
      exact identities_replaced registered (Family.step_name taken.step)
  | collectMetric registered stored done =>
      exact identities_replaced registered (Family.same_collectObject _ _ _).name
  | _ => rfl

theorem later_of_run {s s' : Shared} {es : List Event} (h : Run Shared.Step s es s')
    (hplace : s.place ≠ .outside) (hone : ∀ results, .collect results ∉ es) : s.Later s' := by
  induction h with
  | init => exact ⟨hplace, rfl, fun _ _ => id⟩
  | silent _ taken ih =>
      have hlater := ih hone
      exact hlater.trans (taken.later hlater.place fun results heq => by cases heq)
  | visible _ taken ih =>
      have hlater := ih fun results hmem => hone results (List.mem_append_left _ hmem)
      refine hlater.trans (taken.later hlater.place fun results heq => ?_)
      obtain rfl := Option.some.inj heq
      exact hone results (List.mem_append_right _ List.mem_cons_self)

/-! ## Coming to a family -/

/-- The scrape has yet to come to the family. -/
def Place.Ahead (family : MetricKind × Ptr) : Place → Prop
  | .outside => False
  | .collectAll left _ => family ∈ left
  | .familyCollect _ _ _ left _ => family ∈ left

section Ahead

variable {s s' : Shared} {q : MetricKind × Ptr}

/-- The only step that comes to the family is one from where it is the next. -/
theorem Shared.Step.ahead {o : Option Event} (taken : s.Step o s') (h : s.place.Ahead q) :
    s'.place.Ahead q ∨ ∃ left results, s.place = .collectAll (q :: left) results := by
  cases taken with
  | add k name help labels address fresh => exact h.elim
  | remove k family => exact h.elim
  | family registered taken free => exact .inl h
  | lock => exact h.elim
  | empty registered empty =>
      rcases List.mem_cons.mp h with rfl | hleft
      · exact .inr ⟨_, _, rfl⟩
      · exact .inl hleft
  | enter registered nonempty iteration =>
      rcases List.mem_cons.mp h with rfl | hleft
      · exact .inr ⟨_, _, rfl⟩
      · exact .inl hleft
  | collectMetric registered stored done => exact .inl h
  | leave => exact .inl h
  | unlock => exact absurd h List.not_mem_nil

/-- A run that comes past the family has a moment when it is the next. -/
theorem comes_to {es : List Event} (h : Run Shared.Step s es s') (hahead : s.place.Ahead q) :
    s'.place.Ahead q ∨ ∃ es₁ es₂ r left results, es = es₁ ++ es₂ ∧
      Run Shared.Step s es₁ ⟨r, .collectAll (q :: left) results⟩ ∧
        Run Shared.Step ⟨r, .collectAll (q :: left) results⟩ es₂ s' := by
  induction h with
  | init => exact .inl hahead
  | @silent es s' s'' reached taken ih =>
      rcases ih with hahead' | ⟨es₁, es₂, r, left, results, heq, hbefore, hafter⟩
      · refine (taken.ahead hahead').imp_right fun ⟨left, results, hplace⟩ => ?_
        obtain ⟨r, place⟩ := s'
        obtain rfl : place = _ := hplace
        exact ⟨es, [], r, left, results, (List.append_nil es).symm, reached, .silent .init taken⟩
      · exact .inr ⟨es₁, es₂, r, left, results, heq, hbefore, .silent hafter taken⟩
  | @visible es event s' s'' reached taken ih =>
      rcases ih with hahead' | ⟨es₁, es₂, r, left, results, rfl, hbefore, hafter⟩
      · refine (taken.ahead hahead').imp_right fun ⟨left, results, hplace⟩ => ?_
        obtain ⟨r, place⟩ := s'
        obtain rfl : place = _ := hplace
        exact ⟨es, [event], r, left, results, rfl, reached, .visible .init taken⟩
      · exact .inr ⟨es₁, es₂ ++ [event], r, left, results, List.append_assoc _ _ _, hbefore,
          .visible hafter taken⟩

end Ahead

/-- When a family is the next one, those before it in the order are done. -/
theorem not_mem_left {α : Type*} {order done left : List α} {q q' : α} (horder : order.Nodup)
    (h : [q, q'].Sublist order) (heq : order = done ++ q' :: left) : q ∉ q' :: left := by
  intro hmem
  rw [heq, List.nodup_append] at horder
  obtain ⟨-, hnodup, hdisjoint⟩ := horder
  rw [heq, List.sublist_append_iff] at h
  obtain ⟨front, back, hpair, hfront, hback⟩ := h
  cases front with
  | nil =>
      -- Both would be in the rest, the second one behind its first element.
      obtain rfl : [q, q'] = back := hpair
      rcases List.sublist_cons_iff.mp hback with hleft | ⟨rest, hrest, hleft⟩
      · exact (List.nodup_cons.mp hnodup).1 (hleft.subset (List.mem_cons_of_mem _ List.mem_cons_self))
      · obtain ⟨rfl, rfl⟩ := List.cons.inj hrest
        exact (List.nodup_cons.mp hnodup).1 (hleft.subset List.mem_cons_self)
  | cons first front =>
      obtain ⟨rfl, -⟩ := List.cons.inj hpair
      exact hdisjoint _ (hfront.subset List.mem_cons_self) _ hmem rfl

/-! ## Two metrics -/

/-- The counters are collected before the summaries. -/
theorem sublist_order {r : Registry} {p q : Ptr} {f : Family .counter} {g : Family .summary}
    (hf : (p, f) ∈ r.getFamilies .counter) (hg : (q, g) ∈ r.getFamilies .summary) :
    [(.counter, p), (.summary, q)].Sublist r.order := by
  let place := fun k => (r.getFamilies k).map fun entry => (k, entry.1)
  have hfirst : (.counter, p) ∈ place .counter := List.mem_map.mpr ⟨_, hf, rfl⟩
  have hlast : (.summary, q) ∈ [.gauge, .histogram, .info, .summary].flatMap place :=
    List.mem_flatMap.mpr ⟨.summary, by simp, List.mem_map.mpr ⟨_, hg, rfl⟩⟩
  exact (List.singleton_sublist.mpr hfirst).append (List.singleton_sublist.mpr hlast)

section Scrapes

variable {insert_behavior : InsertBehavior} {es₀ es : List Event} {r₀ : Registry} {s : Shared}
  {results : List MetricFamily} {k k' : MetricKind} {p p' a a' : Ptr} {labels labels' : Labels}

/-- Of two metrics that stay in their places a scrape reads that of the earlier family first: after
some calls, and the other one after these and some more. -/
theorem scrape_reports_in_order
    (hstart : Run Shared.Step ⟨new insert_behavior, .outside⟩ es₀ ⟨r₀, .outside⟩)
    (h : Run Shared.Step ⟨r₀, .collectAll r₀.order []⟩ (es ++ [.collect results]) s)
    (hone : ∀ results', .collect results' ∉ es) {f : Family k} {f' : Family k'} {x : k.Object}
    {x' : k'.Object} (hf : (p, f) ∈ r₀.getFamilies k) (hx : (labels, a, x) ∈ f.metrics_.entries)
    (hf' : (p', f') ∈ r₀.getFamilies k') (hx' : (labels', a', x') ∈ f'.metrics_.entries)
    (horder : [(k, p), (k', p')].Sublist r₀.order)
    (hkept : ∀ event ∈ es, ¬ event.Removes k p a ∧ ¬ event.Removes k' p' a') :
    ∃ es₁ es₂ es₃ metric metric', es = es₁ ++ es₂ ++ es₃ ∧
      reported results f.name_ (f.exposedLabels labels) = [metric] ∧
        Reads f p labels a x es₁ metric ∧
      reported results f'.name_ (f'.exposedLabels labels') = [metric'] ∧
        Reads f' p' labels' a' x' (es₁ ++ es₂) metric' := by
  have hinv := ((Shared.inv_new insert_behavior).run hstart).step .lock
  obtain ⟨m, m', hscrape, hstep, -⟩ := h.split
  cases hstep with
  | @unlock r =>
    have hahead : (k', p') ∈ r₀.order := mem_order hf'
    obtain ⟨es₁, es₂, n, left, done, rfl, hbefore, hafter⟩ :=
      (comes_to hscrape hahead).resolve_left List.not_mem_nil
    have hone₁ : ∀ results', .collect results' ∉ es₁ := fun results' hmem =>
      hone results' (List.mem_append_left _ hmem)
    have hone₂ : ∀ results', .collect results' ∉ es₂ := fun results' hmem =>
      hone results' (List.mem_append_right _ hmem)
    obtain ⟨hkept₁, hkept₂⟩ := List.forall_mem_append.mp hkept
    -- The scrape is about to come to the second family, so it has recorded the first metric.
    have hlater := later_of_run hbefore (fun heq => by cases heq) hone₁
    have hinvn := hinv.run hbefore
    obtain ⟨done', rest, hdone, hleft, -⟩ := hinvn.place
    have hrest : r₀.order = done'.map Prod.fst ++ (k', p') :: left := by
      rw [hleft, order_eq, ← hlater.identities, hdone, List.map_append]
    have hnot : (k, p) ∉ (k', p') :: left :=
      not_mem_left hinv.registry.nodup_order horder hrest
    have hstores : Stores r₀ f p labels a x f := ⟨hf, rfl, rfl, hx⟩
    obtain ⟨-, y, -, -, htracks⟩ := hinv.tracks hbefore hstores (.inl (mem_order hf))
      fun event hevent => (hkept₁ event hevent).1
    obtain ⟨metric, hrecords, hseen⟩ := htracks.resolve_left hnot
    -- It stays recorded, and the second metric is read from here on.
    have hrecords' := (later_of_run hafter hlater.place hone₂).records _ _ hrecords
    have hstores' : Stores r₀ f' p' labels' a' x' f' := ⟨hf', rfl, rfl, hx'⟩
    obtain ⟨g, y', hg, hbecame, -⟩ := hinv.tracks hbefore hstores' (.inl hahead)
      fun event hevent => (hkept₁ event hevent).2
    obtain ⟨-, z', -, -, htracks'⟩ := hinvn.tracks hafter hg (.inl List.mem_cons_self)
      fun event hevent => (hkept₂ event hevent).2
    have hinvr := hinvn.run hafter
    obtain ⟨metric', hseen', hreported'⟩ := reports_of_tracks hinvr htracks'
    obtain ⟨a₁, a₂, rfl, hreads⟩ := hseen.reads
    obtain ⟨b₁, b₂, rfl, w, clock, result, hw, hcollect, hmetric⟩ := hseen'.reads
    refine ⟨a₁, a₂ ++ b₁, b₂, metric, metric', by simp only [List.append_assoc],
      hseen.label ▸ reported_of_records hinvr hrecords', hreads, hreported', w, clock, result, ?_,
      hcollect, hmetric⟩
    rw [← List.append_assoc]
    exact hbecame.trans hw

/-- A family that is registered behind the other one. -/
def downFamily (counter : Counter) : Family .counter := .single (ascii "down") [] 4 counter

def upAndDown (up down : Counter) : Registry where
  insert_behavior_ := .merge
  counters_ := [(1, upFamily up), (3, downFamily down)]

theorem run_upAndDown : Run Shared.Step ⟨new .merge, .outside⟩ (upEvents ++
    [.add .counter (ascii "down") [] .empty 3, .family (k := .counter) 3 (.add .empty 4 ({} : Counter))])
    ⟨upAndDown {} {}, .outside⟩ := by
  have hadded : Shared.Step ⟨up {}, .outside⟩ (some (.add .counter (ascii "down") [] .empty 3)) _ :=
    .add .counter (ascii "down") [] .empty 3 fun k entry hentry => by
      cases k with
      | counter =>
          obtain rfl := List.mem_singleton.mp hentry
          decide
      | _ => exact absurd hentry List.not_mem_nil
  let empty : Family .counter :=
    { metrics_ := .empty, name_ := ascii "down", help_ := [], constant_labels_ := .empty }
  have hregistered : ((up {}).add .counter (ascii "down") [] .empty 3).2.getFamilies .counter =
      [(1, upFamily {})] ++ (3, empty) :: [] := rfl
  have hadd : empty.Does (.add .empty 4 ({} : Counter)) (empty.add .empty (4, ({} : Counter))).2 :=
    .add .empty 4 _ .counter (by decide) fun _ hentry => absurd hentry List.not_mem_nil
  exact run_up.trans (.visible (.visible .init hadded) (.family hregistered hadd fun _ => by decide))

def downIncremented : Event := .family (k := .counter) 3 (.call 4 .counterIncrement)

def upAndDownScraped : List MetricFamily :=
  [⟨ascii "up", [], .counter, [Counter.collect {}]⟩,
    ⟨ascii "down", [], .counter, [(Counter.increment {}).collect]⟩]

/-- Another thread increments the second counter when the first one has been read. -/
theorem run_between : Run Shared.Step ⟨upAndDown {} {}, .collectAll (upAndDown {} {}).order []⟩
    ([downIncremented] ++ [.collect upAndDownScraped])
    ⟨upAndDown {} (Counter.increment {}), .outside⟩ := by
  have hup : ∀ down, (upAndDown {} down).getFamilies .counter =
      [] ++ (1, upFamily {}) :: [(3, downFamily down)] := fun _ => rfl
  have hdown : ∀ down, (upAndDown {} down).getFamilies .counter =
      [(1, upFamily {})] ++ (3, downFamily down) :: [] := fun _ => rfl
  have hcollectUp : (upFamily {}).collectMetric (fun _ _ => 0) (.empty, 2, ({} : Counter)) =
      some (Counter.collect {}) := rfl
  have hcollectDown : (downFamily (Counter.increment {})).collectMetric (fun _ _ => 0)
      (.empty, 4, Counter.increment {}) = some (Counter.increment {}).collect := rfl
  have hfirst : Run Shared.Step ⟨upAndDown {} {}, .collectAll (upAndDown {} {}).order []⟩ [] _ :=
    ((Run.init.silent (.enter (mem_registered (hup _)) rfl ⟨_, .refl _⟩)).silent
      (.collectMetric (hup _) List.mem_cons_self hcollectUp)).silent .leave
  have hcalled := hfirst.visible (.family (hdown _) (.call 4 .counterIncrement rfl)
    fun hlocks => absurd hlocks Bool.false_ne_true)
  have hsecond := ((hcalled.silent (.enter (mem_registered (hdown _)) rfl ⟨_, .refl _⟩)).silent
    (.collectMetric (hdown _) List.mem_cons_self hcollectDown)).silent .leave
  exact hsecond.visible .unlock

theorem scrape_reports_in_order_of_two : ∃ es₁ es₂ es₃ metric metric',
    [downIncremented] = es₁ ++ es₂ ++ es₃ ∧
      reported upAndDownScraped (ascii "up") [] = [metric] ∧
        Reads (upFamily {}) 1 .empty 2 {} es₁ metric ∧
      reported upAndDownScraped (ascii "down") [] = [metric'] ∧
        Reads (downFamily {}) 3 .empty 4 {} (es₁ ++ es₂) metric' := by
  refine scrape_reports_in_order run_upAndDown run_between (fun results hmem => ?_)
    List.mem_cons_self List.mem_cons_self
    (List.mem_cons_of_mem _ List.mem_cons_self) List.mem_cons_self (List.Sublist.refl _)
    fun event hevent => ?_
  · cases List.mem_singleton.mp hmem
  · obtain rfl := List.mem_singleton.mp hevent
    exact ⟨id, id⟩

end Scrapes

end Registry

end PrometheusCpp
