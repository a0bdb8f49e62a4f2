/-
# PrometheusCpp.Core.ScrapeTotals -- what calls on a metric add up to

A scrape reads a counter or a summary when some calls have been made on it. A counter that is not
reset then has the sum of what they gave it, and a summary the number and the sum of what it
observed.
-/
import PrometheusCpp.Core.ScrapeReports
import PrometheusCpp.Core.SummaryWindow

namespace PrometheusCpp

open ByteString

namespace Registry

/-! ## Calls on a metric -/

/-- What the call adds to the counter. -/
def Event.amount (p a : Ptr) : Event → Option Double
  | @Event.family .counter p' (.call a' .counterIncrement) =>
    if p' = p ∧ a' = a then some 1 else none
  | @Event.family .counter p' (.call a' (.counterIncrementBy val)) =>
    if p' = p ∧ a' = a then some val else none
  | _ => none

/-- What the summary observes in the call. -/
def Event.observation (p a : Ptr) : Event → Option Number
  | @Event.family .summary p' (.call a' (.summaryObserve _ value)) =>
    if p' = p ∧ a' = a then some value else none
  | _ => none

variable {p a : Ptr} {es : List Event}

theorem amount_other {event : Event}
    (h : ∀ call : MetricKind.Call .counter, event ≠ .family p (.call a call)) :
    event.amount p a = none := by
  unfold Event.amount
  split
  · refine if_neg ?_
    rintro ⟨rfl, rfl⟩
    exact h _ rfl
  · refine if_neg ?_
    rintro ⟨rfl, rfl⟩
    exact h _ rfl
  · rfl

theorem observation_other {event : Event}
    (h : ∀ call : MetricKind.Call .summary, event ≠ .family p (.call a call)) :
    event.observation p a = none := by
  unfold Event.observation
  split
  · refine if_neg ?_
    rintro ⟨rfl, rfl⟩
    exact h _ rfl
  · rfl

/-- A counter that is not reset, and given nothing negative, has the sum of what it is given. -/
theorem Became.amounts {x y : MetricKind.Object .counter} (h : Became (k := .counter) p a x es y)
    (hreset : ∀ event ∈ es, event ≠ .family p (.call a .counterReset))
    (hpos : ∀ v ∈ es.filterMap (Event.amount p a), v.lt 0 = false) :
    Counter.value y = (es.filterMap (Event.amount p a)).foldl (· + ·) (Counter.value x) := by
  induction h with
  | start => rfl
  | collected _ done ih =>
      obtain rfl := Option.some.inj done
      exact ih hreset hpos
  | other _ other ih =>
      rw [List.filterMap_append, List.filterMap_cons_none (amount_other other), List.filterMap_nil,
        List.append_nil] at hpos ⊢
      exact ih (fun event hevent => hreset event (List.mem_append_left _ hevent)) hpos
  | @call es y y' call _ done ih =>
      rw [List.filterMap_append] at hpos ⊢
      have hbefore := ih (fun event hevent => hreset event (List.mem_append_left _ hevent))
        fun v hv => hpos v (List.mem_append_left _ hv)
      rw [List.foldl_append, ← hbefore]
      cases call with
      | counterIncrement =>
          have hamount : Event.amount p a (.family (k := .counter) p (.call a .counterIncrement)) =
              some 1 := if_pos ⟨rfl, rfl⟩
          rw [List.filterMap_cons_some hamount, ← Option.some.inj done]
          rfl
      | counterIncrementBy val =>
          have hamount : Event.amount p a
              (.family (k := .counter) p (.call a (.counterIncrementBy val))) = some val :=
            if_pos ⟨rfl, rfl⟩
          rw [List.filterMap_cons_some hamount] at hpos ⊢
          have hval : val.lt 0 = false := hpos val (List.mem_append_right _ List.mem_cons_self)
          obtain rfl : Counter.incrementBy y val = y' := Option.some.inj done
          rw [Counter.incrementBy, if_neg (by rw [hval]; exact Bool.false_ne_true)]
          rfl
      | counterReset => exact absurd rfl (hreset _ (List.mem_append_right _ List.mem_cons_self))

theorem Became.observations {x y : MetricKind.Object .summary}
    (h : Became (k := .summary) p a x es y) :
    Summary.count_ y = Summary.count_ x + (es.filterMap (Event.observation p a)).length ∧
      Summary.sum_ y =
        ((es.filterMap (Event.observation p a)).map Double.num).foldl (· + ·) (Summary.sum_ x) := by
  induction h with
  | start => exact ⟨rfl, rfl⟩
  | @collected es y clock result _ done ih =>
      have hstep : Summary.step y (.collect clock) = some result.2 :=
        Option.map_eq_some_iff.mpr ⟨_, done, rfl⟩
      obtain ⟨-, hcount, hsum⟩ := Summary.step_fields hstep
      exact ⟨hcount.trans ih.1, hsum.trans ih.2⟩
  | other _ other ih =>
      rw [List.filterMap_append, List.filterMap_cons_none (observation_other other),
        List.filterMap_nil, List.append_nil]
      exact ih
  | @call es y y' call _ done ih =>
      cases call with
      | summaryObserve now value =>
          have hobserved : Event.observation p a
              (.family (k := .summary) p (.call a (.summaryObserve now value))) = some value :=
            if_pos ⟨rfl, rfl⟩
          have hstep : Summary.step y (.observe now value) = some y' := done
          obtain ⟨-, hcount, hsum⟩ := Summary.step_fields hstep
          rw [List.filterMap_append, List.filterMap_cons_some hobserved, List.filterMap_nil,
            List.length_append, List.map_append, List.foldl_append, ← ih.2, ← Nat.add_assoc, ← ih.1]
          exact ⟨hcount, hsum⟩

/-! ## What is read -/

theorem Reads.counter {f : Family .counter} {labels : Labels} {x : Counter} {metric : ClientMetric}
    (h : Reads f p labels a x es metric) :
    ∃ y : Counter, Became (k := .counter) p a x es y ∧ metric.counter = y.value := by
  obtain ⟨y, clock, result, hbecame, hcollect, rfl⟩ := h
  obtain rfl := Option.some.inj hcollect
  exact ⟨y, hbecame, rfl⟩

theorem Reads.summary {f : Family .summary} {labels : Labels} {x : Summary} {metric : ClientMetric}
    (h : Reads f p labels a x es metric) :
    ∃ y : Summary, Became (k := .summary) p a x es y ∧ metric.summary.sample_count = y.count_ ∧
      metric.summary.sample_sum = y.sum_ := by
  obtain ⟨y, clock, result, hbecame, hcollect, rfl⟩ := h
  obtain ⟨⟨quantile, w⟩, -, hresult⟩ := Option.bind_eq_some_iff.mp hcollect
  obtain rfl := Option.some.inj hresult
  exact ⟨y, hbecame, rfl, rfl⟩

end Registry

/-- A sum of doubles, where their addition is that of other numbers. -/
theorem foldl_additive {α : Type*} [AddMonoid α] (f : α → Double)
    (hf : ∀ a b, f (a + b) = f a + f b) (xs : List α) :
    ∀ a, (xs.map f).foldl (· + ·) (f a) = f (a + xs.sum) := by
  induction xs with
  | nil =>
      intro a
      rw [List.sum_nil, add_zero]
      rfl
  | cons x xs ih =>
      intro a
      rw [List.map_cons, List.foldl_cons, ← hf, ih, List.sum_cons, add_assoc]

end PrometheusCpp
