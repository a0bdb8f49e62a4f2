/-
# PrometheusCpp.Core.HistogramThreads -- histograms with many threads at once

A call on a histogram changes it counter by counter, under a lock. `Observe` looks for its bucket
before it takes the lock, and `ObserveMultiple` compares the sizes, which is sound because neither
the boundaries nor the number of counters ever changes. No thread sees another one half-way through
its counters (`histogram_linearizable`), and a `Collect` among other calls returns what some of the
observations come to, each of them counted once (`threads_collect`).
-/
import PrometheusCpp.Core.GaugeThreads
import PrometheusCpp.Core.HistogramCounts
import PrometheusCpp.Lib.LockedObject
import Mathlib.Data.Set.List

namespace PrometheusCpp

open BinarySearch Linearization LockedObject

namespace Histogram

/-- A call by the only caller. -/
def perform (h : Histogram) : Call → Response × Histogram
  | .observe value => (.done, h.observe value)
  | .observeMultiple bucket_increments sum_of_values =>
    match h.observeMultiple bucket_increments sum_of_values with
    | .ok h' => (.done, h')
    | .error e => (.threw e, h)
  | .reset => (.done, h.reset)
  | .collect => (.metric h.collect, h)

theorem perform_snd (h : Histogram) (call : Call) : (h.perform call).2 = step h call := by
  cases call with
  | observeMultiple increments sum =>
      simp only [perform, step]
      cases h.observeMultiple increments sum <;> rfl
  | _ => rfl

/-! ## The critical sections -/

/-- Where a call is in its critical section, with its local variables. -/
inductive Section where
  | observeSum (value : Double) (bucket_index : Nat)
  | observeCount (bucket_index : Nat)
  | multipleSum (bucket_increments : List Double) (sum_of_values : Double)
  | multipleCount (bucket_increments : List Double) (i : Nat)
  | resetCount (i : Nat)
  | collect (i cumulative_count : Nat) (bucket : List ClientMetric.Bucket)

/-- What is done without the lock. -/
def enter (h : Histogram) : Call → Section ⊕ Response
  | .observe value =>
    .inl (.observeSum value (lowerBound (fun boundary => boundary.lt value) h.bucket_boundaries_))
  | .observeMultiple bucket_increments sum_of_values =>
    if bucket_increments.length ≠ h.bucket_counts_.length then
      .inr (.threw (.lengthError
        "The size of bucket_increments was not equal tothe number of buckets in the histogram."))
    else .inl (.multipleSum bucket_increments sum_of_values)
  | .reset => .inl (.resetCount 0)
  | .collect => .inl (.collect 0 0 [])

/-- One access to a counter or the sum, under the lock. -/
def Section.step (h : Histogram) : Section → (Section ⊕ Response) × Histogram
  | .observeSum value bucket_index =>
    (.inl (.observeCount bucket_index), { h with sum_ := h.sum_.increment value })
  | .observeCount bucket_index =>
    (.inr .done, { h with bucket_counts_ := h.bucket_counts_.modify bucket_index Counter.increment })
  | .multipleSum bucket_increments sum_of_values =>
    (.inl (.multipleCount bucket_increments 0), { h with sum_ := h.sum_.increment sum_of_values })
  | .multipleCount bucket_increments i =>
    if i < h.bucket_counts_.length then
      (.inl (.multipleCount bucket_increments (i + 1)),
        { h with
          bucket_counts_ :=
            h.bucket_counts_.modify i fun counter => counter.incrementBy (bucket_increments.getD i 0) })
    else (.inr .done, h)
  | .resetCount i =>
    if i < h.bucket_counts_.length then
      (.inl (.resetCount (i + 1)),
        { h with bucket_counts_ := h.bucket_counts_.modify i Counter.reset })
    else (.inr .done, { h with sum_ := h.sum_.set 0 })
  | .collect i cumulative_count bucket =>
    if i < h.bucket_counts_.length then
      let counter := h.bucket_counts_.getD i {}
      let cumulative_count := ((cumulative_count : Double) + counter.value).toNat
      -- Behind the last boundary the bound is infinity.
      let upper_bound := h.bucket_boundaries_.getD i .posInf
      (.inl (.collect (i + 1) cumulative_count (bucket ++ [{ cumulative_count, upper_bound }])), h)
    else
      (.inr (.metric { histogram :=
        { sample_count := cumulative_count, sample_sum := h.sum_.value, bucket } }), h)

def methods : Methods Call Response Histogram Section where
  enter call h := h.enter call
  step at_ h next h' := at_.step h = (next, h')
  environment _ _ := False

/-- A histogram as its callers know it. -/
def Performs (h : Histogram) (call : Call) (r : Response) (h' : Histogram) : Prop :=
  h.perform call = (r, h')

/-! ## What is left of a section -/

/-- What a section makes of the histogram if nobody interferes from here on. -/
def Section.finish (h : Histogram) : Section → Response × Histogram
  | .observeSum value bucket_index =>
    (.done, { h with
      sum_ := h.sum_.increment value
      bucket_counts_ := h.bucket_counts_.modify bucket_index Counter.increment })
  | .observeCount bucket_index =>
    (.done, { h with bucket_counts_ := h.bucket_counts_.modify bucket_index Counter.increment })
  | .multipleSum bucket_increments sum_of_values =>
    (.done, { h with
      sum_ := h.sum_.increment sum_of_values
      bucket_counts_ := List.zipWith Counter.incrementBy h.bucket_counts_ bucket_increments })
  | .multipleCount bucket_increments i =>
    (.done, { h with
      bucket_counts_ := h.bucket_counts_.take i ++
        List.zipWith Counter.incrementBy (h.bucket_counts_.drop i) (bucket_increments.drop i) })
  | .resetCount i =>
    (.done, { h with
      bucket_counts_ := h.bucket_counts_.take i ++ (h.bucket_counts_.drop i).map Counter.reset
      sum_ := h.sum_.set 0 })
  | .collect i cumulative_count bucket =>
    let (rest, sample_count) :=
      collectLoop cumulative_count (h.bucket_boundaries_.drop i) (h.bucket_counts_.drop i)
    (.metric { histogram :=
      { sample_count, sample_sum := h.sum_.value, bucket := bucket ++ rest } }, h)

/-- A batch has one entry for each counter. -/
def Section.Fits (h : Histogram) : Section → Prop
  | .multipleSum bucket_increments _ => bucket_increments.length = h.bucket_counts_.length
  | .multipleCount bucket_increments _ => bucket_increments.length = h.bucket_counts_.length
  | _ => True

theorem take_succ_modify {α : Type} (f : α → α) {xs : List α} {i : Nat} (hi : i < xs.length) :
    (xs.modify i f).take (i + 1) = xs.take i ++ [f xs[i]] := by
  have hbefore : (xs.modify i f).take i = xs.take i := by
    rw [List.take_modify, List.modify_eq_self (List.length_take_le i xs)]
  rw [← List.take_append_getElem (by simpa using hi), hbefore, List.getElem_modify_eq]

/-- A step does not change what the section makes of the histogram. -/
theorem Section.finish_step {h h' : Histogram} {at_ at' : Section} (hfits : at_.Fits h)
    (hstep : at_.step h = (.inl at', h')) : at'.Fits h' ∧ at'.finish h' = at_.finish h := by
  cases at_ with
  | observeSum value bucket_index =>
      obtain ⟨hat, rfl⟩ := Prod.mk.inj hstep
      obtain rfl := Sum.inl.inj hat
      exact ⟨trivial, rfl⟩
  | observeCount bucket_index => cases hstep
  | multipleSum bucket_increments sum_of_values =>
      obtain ⟨hat, rfl⟩ := Prod.mk.inj hstep
      obtain rfl := Sum.inl.inj hat
      exact ⟨hfits, rfl⟩
  | multipleCount bucket_increments i =>
      simp only [Section.step] at hstep
      split_ifs at hstep with hi
      · obtain ⟨hat, rfl⟩ := Prod.mk.inj hstep
        obtain rfl := Sum.inl.inj hat
        have hi' : i < bucket_increments.length := hfits ▸ hi
        refine ⟨by simpa [Section.Fits] using hfits, ?_⟩
        simp only [Section.finish, take_succ_modify _ hi, List.drop_eq_getElem_cons hi,
          List.drop_modify_of_lt _ _ _ _ i.lt_succ_self, List.drop_eq_getElem_cons hi',
          List.zipWith_cons_cons, List.append_assoc, List.singleton_append,
          List.getD_eq_getElem?_getD, List.getElem?_eq_getElem hi', Option.getD_some]
      · cases hstep
  | resetCount i =>
      simp only [Section.step] at hstep
      split_ifs at hstep with hi
      · obtain ⟨hat, rfl⟩ := Prod.mk.inj hstep
        obtain rfl := Sum.inl.inj hat
        refine ⟨trivial, ?_⟩
        simp only [Section.finish, take_succ_modify _ hi,
          List.drop_modify_of_lt _ _ _ _ i.lt_succ_self, List.drop_eq_getElem_cons hi,
          List.map_cons, List.append_assoc, List.singleton_append]
      · cases hstep
  | collect i cumulative_count bucket =>
      simp only [Section.step] at hstep
      split_ifs at hstep with hi
      · obtain ⟨hat, rfl⟩ := Prod.mk.inj hstep
        obtain rfl := Sum.inl.inj hat
        refine ⟨trivial, ?_⟩
        simp only [Section.finish, List.drop_eq_getElem_cons hi, collectLoop, List.tail_drop,
          List.headD_eq_head?_getD, List.head?_drop, List.getD_eq_getElem?_getD,
          List.getElem?_eq_getElem hi, Option.getD_some, List.append_assoc, List.singleton_append]
      · cases hstep

/-- The last step leaves nothing to be made. -/
theorem Section.finish_return {h h' : Histogram} {at_ : Section} {r : Response} (hfits : at_.Fits h)
    (hstep : at_.step h = (.inr r, h')) : at_.finish h = (r, h') := by
  cases at_ with
  | observeSum value bucket_index => cases hstep
  | observeCount bucket_index =>
      obtain ⟨hr, rfl⟩ := Prod.mk.inj hstep
      rw [← Sum.inr.inj hr]
      rfl
  | multipleSum bucket_increments sum_of_values => cases hstep
  | multipleCount bucket_increments i =>
      simp only [Section.step] at hstep
      split_ifs at hstep with hi
      · cases hstep
      · obtain ⟨hr, rfl⟩ := Prod.mk.inj hstep
        rw [← Sum.inr.inj hr, Section.finish, List.take_of_length_le (not_lt.mp hi),
          List.drop_of_length_le (not_lt.mp hi), List.zipWith_nil_left, List.append_nil]
  | resetCount i =>
      simp only [Section.step] at hstep
      split_ifs at hstep with hi
      · cases hstep
      · obtain ⟨hr, rfl⟩ := Prod.mk.inj hstep
        rw [← Sum.inr.inj hr, Section.finish, List.take_of_length_le (not_lt.mp hi),
          List.drop_of_length_le (not_lt.mp hi), List.map_nil, List.append_nil]
  | collect i cumulative_count bucket =>
      simp only [Section.step] at hstep
      split_ifs at hstep with hi
      · cases hstep
      · obtain ⟨hr, rfl⟩ := Prod.mk.inj hstep
        rw [← Sum.inr.inj hr, Section.finish, List.drop_of_length_le (not_lt.mp hi)]
        simp only [collectLoop, List.append_nil]

/-- What is looked at without the lock never changes. -/
theorem Section.enter_step {h h' : Histogram} {at_ : Section} {next : Section ⊕ Response}
    (hstep : at_.step h = (next, h')) (call : Call) : h'.enter call = h.enter call := by
  have hsame : h'.bucket_boundaries_ = h.bucket_boundaries_ ∧
      h'.bucket_counts_.length = h.bucket_counts_.length := by
    obtain rfl : (at_.step h).2 = h' := by rw [hstep]
    cases at_ with
    | multipleCount | resetCount | collect =>
        simp only [Section.step]
        split_ifs <;> simp
    | _ => simp [Section.step]
  cases call <;> simp only [enter, hsame.1, hsame.2]

/-- A call that enters is what its whole section makes. -/
theorem finish_enter {h : Histogram} {call : Call} {at_ : Section} (henter : h.enter call = .inl at_) :
    at_.Fits h ∧ at_.finish h = h.perform call := by
  cases call with
  | observe value =>
      obtain rfl := Sum.inl.inj henter
      exact ⟨trivial, rfl⟩
  | observeMultiple bucket_increments sum_of_values =>
      simp only [enter] at henter
      split_ifs at henter with hsize
      obtain rfl := Sum.inl.inj henter
      refine ⟨not_not.mp hsize, ?_⟩
      simp only [perform, observeMultiple, if_neg hsize]
      rfl
  | reset =>
      obtain rfl := Sum.inl.inj henter
      exact ⟨trivial, rfl⟩
  | collect =>
      obtain rfl := Sum.inl.inj henter
      exact ⟨trivial, rfl⟩

theorem return_enter {h : Histogram} {call : Call} {r : Response} (henter : h.enter call = .inr r) :
    h.perform call = (r, h) := by
  cases call with
  | observe | reset | collect => cases henter
  | observeMultiple bucket_increments sum_of_values =>
      simp only [enter] at henter
      split_ifs at henter with hsize
      rw [← Sum.inr.inj henter]
      simp only [perform, observeMultiple, if_pos hsize]

/-- A section makes of the histogram what its call does. -/
theorem realizes : Realizes methods Performs Eq fun (h₀ : Histogram) call at_ h =>
    at_.Fits h ∧ at_.finish h = h₀.perform call where
  enter_step hstep := Section.enter_step hstep _
  enter_environment hhappens := absurd hhappens not_false
  returns habs hreturn := habs ▸ return_enter hreturn
  enters habs henter := habs ▸ finish_enter henter
  works hduring hstep := by
    obtain ⟨hfits, hfinish⟩ := Section.finish_step hduring.1 hstep
    exact ⟨hfits, hfinish.trans hduring.2⟩
  finishes hduring hstep :=
    ⟨_, hduring.2.symm.trans (Section.finish_return hduring.1 hstep), rfl⟩
  abs_environment _ hhappens := absurd hhappens not_false
  during_environment _ hhappens := absurd hhappens not_false

/-! ## The threads -/

theorem run_of_sequential {ι : Type} {h₀ h : Histogram} {log : List (ι × Call × Response)}
    (hlog : Sequential Performs h₀ log h) : h = run h₀ (log.map fun entry => entry.2.1) := by
  induction hlog with
  | nil => rfl
  | @concat log h h' call r before t done ih =>
      have hstep : step h call = h' := by rw [← perform_snd, (done : h.perform call = (r, h'))]
      rw [run, List.map_append, List.foldl_append, ← hstep, ih]
      rfl

section Threads

variable {ι : Type} [DecidableEq ι] {es : List (Event ι Call Response)} {h₀ : Histogram}
  {c : Config ι Call (Guarded ι Histogram) (Place Call Response Section)}

/-- However the counter accesses of the threads are interleaved, the calls are those of an atomic
histogram, which has the counters that the lock gives back. -/
theorem histogram_linearizable
    (h : Run (Config.Step (locked methods)) (Config.new ⟨none, h₀⟩) es c) :
    ∃ a, Run (Atomic.Step Performs) (Atomic.new h₀) es a ∧
      (c.shared.holder = none → a.state = c.shared.value) ∧
      ∀ t, c.threads t = none → a.status t = .idle := by
  obtain ⟨a, hrun, hcorresponds⟩ := realizes.linearizable rfl h
  exact ⟨a, hrun, fun hfree => (hcorresponds.free hfree).symm,
    fun t ht => (ht ▸ hcorresponds.threads t).of_none.1⟩

/-- What a `Collect` returns among other calls: it is that of a histogram with the calls of an order
in which all that had returned when it began are, and only such that had begun when it returned, each
of them once. Calls on whole counts are their observations. -/
theorem threads_collect {t : ι} {r : Response} {es₁ es₂ es₃ : List (Event ι Call Response)}
    (h : Run (Config.Step (locked methods)) (Config.new ⟨none, h₀⟩)
      (es₁ ++ .invoke t .collect :: (es₂ ++ .respond t r :: es₃)) c)
    (hother : ∀ e ∈ es₂, e.thread ≠ t) :
    ∃ seen : List (ι × Call), (returned es₁).Subperm seen ∧ seen.Subperm (invoked (es₁ ++ es₂)) ∧
      r = .metric (run h₀ (seen.map Prod.snd)).collect ∧
      ∀ bounds : List ℚ, bounds.Pairwise (· < ·) → new (bounds.map Double.ofRat) = .ok h₀ →
        (∀ entry ∈ invoked (es₁ ++ es₂), ∃ call : WholeCall bounds.length, call.toCall = entry.2) →
          ∃ calls : List (WholeCall bounds.length), calls.map WholeCall.toCall = seen.map Prod.snd ∧
            r = .metric { histogram := (observed calls).collected bounds } := by
  obtain ⟨a, hrun, -⟩ := histogram_linearizable h
  obtain ⟨log, s, s', hlog, hperform, hbefore, hafter⟩ := hrun.seen hother
  have hstate : s = run h₀ ((logged log).map Prod.snd) := by
    rw [run_of_sequential hlog, logged, List.map_map]
    rfl
  have hr : r = .metric s.collect := (Prod.mk.inj hperform).1.symm
  refine ⟨logged log, hbefore, hafter, hstate ▸ hr, fun bounds hb hnew hwhole => ?_⟩
  -- The calls carried out before are whole, since they were begun.
  obtain ⟨calls, hcalls⟩ : (logged log).map Prod.snd ∈
      Set.range (List.map (WholeCall.toCall : WholeCall bounds.length → Call)) := by
    rw [Set.range_list_map]
    intro call hcall
    obtain ⟨entry, hentry, rfl⟩ := List.mem_map.mp hcall
    exact hwhole entry (hafter.subset hentry)
  obtain ⟨-, rfl⟩ := new_eq_ok hnew
  have hwholeState : s = runWhole { bucket_boundaries_ := bounds.map Double.ofRat
                                    bucket_counts_ := List.replicate (bounds.length + 1) {} } calls := by
    rw [hstate, ← hcalls, List.length_map]
    rfl
  have hcollect := ((counts_empty bounds).run hb calls).collect hb
  rw [← hwholeState] at hcollect
  refine ⟨calls, hcalls, hr.trans ?_⟩
  rw [observed, ← hcollect]
  rfl

/-- Two threads observe in a histogram with the boundary 1. The second one looks for its bucket while
the first one is between the sum and the counter. -/
def observing : List (Event Bool Call Response) :=
  [.invoke false (.observe (.ofRat 1)), .invoke true (.observe (.ofRat 5)), .respond false .done,
    .respond true .done]

theorem exists_observing (h₀ : Histogram) :
    ∃ c : Config Bool Call (Guarded Bool Histogram) (Place Call Response Section),
      Run (Config.Step (locked methods)) (Config.new ⟨none, h₀⟩) observing c ∧
        c.shared.holder = none ∧ ∀ t, c.threads t = none := by
  refine ⟨_, .visible (.silent (.silent (.silent (.visible (.silent (.silent (.visible (.silent
    (.silent (.silent (.visible .init (.invoke (t := false) _ rfl))
    (.internal (t := false) rfl (.enter rfl)))
    (.internal (t := false) rfl (.lock rfl)))
    (.internal (t := false) rfl (.work rfl)))
    (.invoke (t := true) _ rfl))
    (.internal (t := true) rfl (.enter rfl)))
    (.internal (t := false) rfl (.finish rfl)))
    (.respond (t := false) rfl .unlock))
    (.internal (t := true) rfl (.lock rfl)))
    (.internal (t := true) rfl (.work rfl)))
    (.internal (t := true) rfl (.finish rfl)))
    (.respond (t := true) rfl .unlock), rfl, ?_⟩
  intro t
  cases t <;> rfl

theorem histogram_linearizable_of_two : ∃ h₀, new [.ofRat 1] = .ok h₀ ∧
    ∃ a : Atomic Bool Call Response Histogram,
      Run (Atomic.Step Performs) (Atomic.new h₀) observing a ∧ ∀ t, a.status t = .idle := by
  refine ⟨_, rfl, ?_⟩
  obtain ⟨c, hrun, -, hquiet⟩ := exists_observing
    { bucket_boundaries_ := [.ofRat 1], bucket_counts_ := List.replicate 2 {} }
  obtain ⟨a, ha, -, hidle⟩ := histogram_linearizable hrun
  exact ⟨a, ha, fun t => hidle t (hquiet t)⟩

/-- The section of a `Collect`, left to itself. -/
theorem exists_collect {shared : Guarded ι Histogram}
    {threads : ι → Option (Call × Place Call Response Section)} (t : ι) (call : Call) (left : Nat) :
    ∀ {i cumulative_count : Nat} {bucket : List ClientMetric.Bucket},
      shared.value.bucket_counts_.length ≤ i + left →
      ∃ r, Run (Config.Step (locked methods))
        ⟨shared, Function.update threads t (some (call, .inside (.collect i cumulative_count bucket)))⟩
        [] ⟨shared, Function.update threads t (some (call, .leaving r))⟩ := by
  have hstep : ∀ (at_ : Section) {place : Place Call Response Section},
      ThreadStep methods t (.inside at_) shared (.inl place) shared →
      Run (Config.Step (locked methods))
        ⟨shared, Function.update threads t (some (call, .inside at_))⟩ []
        ⟨shared, Function.update threads t (some (call, place))⟩ := by
    intro at_ place taken
    have hinternal : Config.Step (locked methods)
        ⟨shared, Function.update threads t (some (call, .inside at_))⟩ none _ :=
      .internal (Function.update_self ..) taken
    rw [Function.update_idem] at hinternal
    exact .silent .init hinternal
  induction left with
  | zero =>
      intro i cumulative_count bucket hi
      exact ⟨_, hstep (.collect i cumulative_count bucket) (.finish (if_neg (not_lt.mpr hi)))⟩
  | succ left ih =>
      intro i cumulative_count bucket hi
      by_cases hmore : i < shared.value.bucket_counts_.length
      · have hwork := hstep (.collect i cumulative_count bucket) (.work (if_pos hmore))
        obtain ⟨r, hrest⟩ := ih (i := i + 1) (by omega)
        exact ⟨r, hwork.trans hrest⟩
      · exact ⟨_, hstep (.collect i cumulative_count bucket) (.finish (if_neg hmore))⟩

/-- Another observation begins after a `Collect` has, and waits for it. -/
def collecting (r : Response) : List (Event Bool Call Response) :=
  observing ++ [.invoke false .collect, .invoke true (.observe (.ofRat 7)), .respond false r,
    .respond true .done]

theorem exists_collecting (h₀ : Histogram) : ∃ (r : Response)
    (c : Config Bool Call (Guarded Bool Histogram) (Place Call Response Section)),
      Run (Config.Step (locked methods)) (Config.new ⟨none, h₀⟩) (collecting r) c := by
  obtain ⟨⟨⟨holder, h⟩, threads⟩, hrun, hfree, hquiet⟩ := exists_observing h₀
  obtain rfl : holder = none := hfree
  obtain rfl : threads = fun _ => none := funext hquiet
  have hbegun := Run.silent (.silent (.silent (.visible (.visible hrun
    (.invoke (t := false) .collect rfl)) (.invoke (t := true) (.observe (.ofRat 7)) rfl))
    (.internal (t := true) rfl (.enter rfl))) (.internal (t := false) rfl (.enter rfl)))
    (.internal (t := false) rfl (.lock rfl))
  have hcounts : (⟨some false, h⟩ : Guarded Bool Histogram).value.bucket_counts_.length ≤
      0 + h.bucket_counts_.length := Nat.le_add_left _ 0
  obtain ⟨r, hcollect⟩ := exists_collect false .collect _ hcounts
  have hcollected := Run.visible (hbegun.trans hcollect) (.respond (t := false) rfl .unlock)
  exact ⟨_, _, .visible (.silent (.silent (.silent hcollected
    (.internal (t := true) rfl (.lock rfl))) (.internal (t := true) rfl (.work rfl)))
    (.internal (t := true) rfl (.finish rfl))) (.respond (t := true) rfl .unlock)⟩

theorem threads_collect_of_two : ∃ h₀, new [.ofRat 1] = .ok h₀ ∧
    ∃ (r : Response) (c : Config Bool Call (Guarded Bool Histogram) (Place Call Response Section)),
      Run (Config.Step (locked methods)) (Config.new ⟨none, h₀⟩) (collecting r) c ∧
      ∃ (seen : List (Bool × Call)) (calls : List (WholeCall 1)),
        List.Subperm [(false, .observe (.ofRat 1)), (true, .observe (.ofRat 5))] seen ∧
        seen.Subperm [(false, .observe (.ofRat 1)), (true, .observe (.ofRat 5)),
          (true, .observe (.ofRat 7))] ∧
        calls.map WholeCall.toCall = seen.map Prod.snd ∧
          r = .metric { histogram := (observed calls).collected [1] } := by
  have hnew : new ([1].map Double.ofRat) = .ok _ := rfl
  obtain ⟨r, c, hrun⟩ := exists_collecting
    { bucket_boundaries_ := [.ofRat 1], bucket_counts_ := List.replicate 2 {} }
  have hwhole : ∀ entry ∈ [(false, Call.observe (.ofRat 1)), (true, .observe (.ofRat 5)),
      (true, .observe (.ofRat 7))], ∃ call : WholeCall 1, call.toCall = entry.2 := by
    simp only [List.forall_mem_cons]
    exact ⟨⟨.observe 1, rfl⟩, ⟨.observe 5, rfl⟩, ⟨.observe 7, rfl⟩, nofun⟩
  have hcollecting : Run (Config.Step (locked methods)) (Config.new ⟨none, _⟩)
      ((collecting r).take 4 ++ .invoke false .collect ::
        ([.invoke true (.observe (.ofRat 7))] ++ .respond false r :: [.respond true .done])) c := hrun
  obtain ⟨seen, hbefore, hafter, -, hobserved⟩ := threads_collect hcollecting (by simp [Event.thread])
  obtain ⟨calls, hcalls, hr⟩ := hobserved [1] (List.pairwise_singleton _ (1 : ℚ)) hnew hwhole
  exact ⟨_, hnew, r, c, hrun, seen, calls, hbefore, hafter, hcalls, hr⟩

end Threads

end Histogram

end PrometheusCpp
