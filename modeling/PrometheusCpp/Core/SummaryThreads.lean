/-
# PrometheusCpp.Core.SummaryThreads -- summaries with many threads and a clock

A call on a summary runs under a lock, and meanwhile the clock goes on: `Collect` reads it anew for
each of its quantiles. The clock is read with the lock held only, so that the readings never go back
in the order in which the calls take effect, which is what the sliding window relies on
(`summary_linearizable`). What a `Collect` among other calls returns is told by one sequence of
observations, each of them counted once (`threads_collect_window`).
-/
import PrometheusCpp.Core.GaugeThreads
import PrometheusCpp.Core.SummaryWindow
import PrometheusCpp.Lib.LockedObject

namespace PrometheusCpp.Summary

open Linearization LockedObject

/-! ## The critical sections -/

/-- A call without the clock readings that it will make. -/
inductive Invocation where
  | observe (value : Number)
  | collect
  deriving DecidableEq

def Call.invocation : Call → Invocation
  | .observe _ value => .observe value
  | .collect _ => .collect

/-- A summary and what the clock reads now. -/
structure Timed where
  summary : Summary
  now : Int

/-- Where a call is in its critical section, with its local variables. -/
inductive Section where
  | observeCount (value : Number)
  | observeSum (value : Number)
  | observeInsert (value : Number)
  | collect (i : Nat) (quantile : List ClientMetric.Quantile)

def Invocation.enter : Invocation → Section
  | .observe value => .observeCount value
  | .collect => .collect 0 []

inductive Section.Step : Section → Timed → Section ⊕ Response → Timed → Prop
  | count {value : Number} {s : Summary} {now : Int} :
      Step (.observeCount value) ⟨s, now⟩ (.inl (.observeSum value))
        ⟨{ s with count_ := s.count_ + 1 }, now⟩
  | sum {value : Number} {s : Summary} {now : Int} :
      Step (.observeSum value) ⟨s, now⟩ (.inl (.observeInsert value))
        ⟨{ s with sum_ := s.sum_ + .num value }, now⟩
  | insert {value : Number} {s : Summary} {now : Int} {w : TimeWindowQuantiles CKMSQuantiles}
      (inserted : s.quantile_values_.insert now value = some w) :
      Step (.observeInsert value) ⟨s, now⟩ (.inr .done) ⟨{ s with quantile_values_ := w }, now⟩
  | get {i : Nat} {quantile : List ClientMetric.Quantile} {s : Summary} {now : Int}
      {q : CKMSQuantiles.Quantile} {value : Double} {w : TimeWindowQuantiles CKMSQuantiles}
      (more : s.quantiles_[i]? = some q)
      (got : s.quantile_values_.get now q.quantile = some (value, w)) :
      Step (.collect i quantile) ⟨s, now⟩
        (.inl (.collect (i + 1) (quantile ++ [{ quantile := q.quantile, value }])))
        ⟨{ s with quantile_values_ := w }, now⟩
  | report {i : Nat} {quantile : List ClientMetric.Quantile} {s : Summary} {now : Int}
      (no_more : s.quantiles_[i]? = none) :
      Step (.collect i quantile) ⟨s, now⟩
        (.inr (.metric { summary := { sample_count := s.count_, sample_sum := s.sum_, quantile } }))
        ⟨s, now⟩

/-- The clock goes on by itself, and never back. -/
def methods : Methods Invocation Response Timed Section where
  enter op _ := .inl op.enter
  step := Section.Step
  environment v v' := v'.summary = v.summary ∧ v.now ≤ v'.now

/-! ## The summary of one caller -/

/-- A call by the only caller. -/
def perform (s : Summary) : Call → Option (Response × Summary)
  | .observe now value => (s.observe now value).map fun s' => (.done, s')
  | .collect clock => (s.collect clock).map fun (metric, s') => (.metric metric, s')

theorem perform_snd {s s' : Summary} {call : Call} {r : Response}
    (h : s.perform call = some (r, s')) : s.step call = some s' := by
  cases call with
  | observe now value =>
      obtain ⟨s₁, hs₁, heq⟩ := Option.map_eq_some_iff.mp h
      rw [← (Prod.mk.inj heq).2]
      exact hs₁
  | collect clock =>
      obtain ⟨⟨metric, s₁⟩, hs₁, heq⟩ := Option.map_eq_some_iff.mp h
      rw [← (Prod.mk.inj heq).2]
      exact Option.map_eq_some_iff.mpr ⟨_, hs₁, rfl⟩

/-- A summary as its callers know it, with a time by which all readings so far were made: a call
reads the clock from then on. -/
def Performs (a : Summary × Int) (op : Invocation) (r : Response) (a' : Summary × Int) : Prop :=
  ∃ call : Call, call.invocation = op ∧ a.1.perform call = some (r, a'.1) ∧
    Monotone a.1.quantiles_ a.2 [call] ∧
    ∀ reading ∈ a.2 :: call.readings a.1.quantiles_, reading ≤ a'.2

/-! ## What is left of a section -/

/-- The section, begun with the summary `a.1` after the time `a.2`, has come to the state `v`. -/
inductive During (a : Summary × Int) : Invocation → Section → Timed → Prop
  | observeCount {value : Number} {now : Int} (later : a.2 ≤ now) :
      During a (.observe value) (.observeCount value) ⟨a.1, now⟩
  | observeSum {value : Number} {now : Int} (later : a.2 ≤ now) :
      During a (.observe value) (.observeSum value) ⟨{ a.1 with count_ := a.1.count_ + 1 }, now⟩
  | observeInsert {value : Number} {now : Int} (later : a.2 ≤ now) :
      During a (.observe value) (.observeInsert value)
        ⟨{ a.1 with
            count_ := a.1.count_ + 1
            sum_ := a.1.sum_ + .num value }, now⟩
  | collect {i : Nat} {quantile : List ClientMetric.Quantile} {readings : List Int}
      {w : TimeWindowQuantiles CKMSQuantiles} {now : Int} (length : readings.length = i)
      (short : i ≤ a.1.quantiles_.length) (sorted : (a.2 :: readings).Pairwise (· ≤ ·))
      (past : ∀ reading ∈ a.2 :: readings, reading ≤ now)
      (left : ∀ clock : Nat → Int, (List.range i).map clock = readings →
        collectLoop clock 0 a.1.quantiles_ a.1.quantile_values_ =
          (collectLoop clock i (a.1.quantiles_.drop i) w).map
            fun rest => (quantile ++ rest.1, rest.2)) :
      During a .collect (.collect i quantile) ⟨{ a.1 with quantile_values_ := w }, now⟩

/-- The summary as it was left, at a time after all readings. -/
def Abs (v : Timed) (a : Summary × Int) : Prop := v.summary = a.1 ∧ a.2 ≤ v.now

theorem collectLoop_of_get {clock : Nat → Int} {i : Nat} {q : CKMSQuantiles.Quantile} {value : Double}
    {w w' : TimeWindowQuantiles CKMSQuantiles} {rest : List CKMSQuantiles.Quantile}
    (got : w.get (clock i) q.quantile = some (value, w')) :
    collectLoop clock i (q :: rest) w = (collectLoop clock (i + 1) rest w').map
      fun r => ({ quantile := q.quantile, value } :: r.1, r.2) := by
  rw [collectLoop, got]
  show Option.bind _ _ = _
  rw [Option.map_eq_bind]
  rfl

theorem During.of_enter {v : Timed} {a : Summary × Int} (habs : Abs v a) (op : Invocation) :
    During a op op.enter v := by
  obtain ⟨s, now⟩ := v
  obtain ⟨rfl, hlater⟩ := habs
  cases op with
  | observe value => exact .observeCount hlater
  | collect =>
      refine .collect List.length_nil (Nat.zero_le _) (List.pairwise_singleton _ _) ?_ ?_
      · simpa using hlater
      · intro clock _
        simp

/-- The clock may go on between any two steps. -/
theorem During.later {v v' : Timed} {a : Summary × Int} {op : Invocation} {at_ : Section}
    (h : During a op at_ v) (hsame : v'.summary = v.summary) (hlater : v.now ≤ v'.now) :
    During a op at_ v' := by
  obtain ⟨s, now⟩ := v'
  obtain rfl : s = v.summary := hsame
  cases h with
  | observeCount later => exact .observeCount (later.trans hlater)
  | observeSum later => exact .observeSum (later.trans hlater)
  | observeInsert later => exact .observeInsert (later.trans hlater)
  | collect length short sorted past left =>
      exact .collect length short sorted (fun r hr => (past r hr).trans hlater) left

theorem During.work {v v' : Timed} {a : Summary × Int} {op : Invocation} {at_ at' : Section}
    (h : During a op at_ v) (hstep : Section.Step at_ v (.inl at') v') : During a op at' v' := by
  cases h with
  | observeCount later =>
      cases hstep with
      | count => exact .observeSum later
  | observeSum later =>
      cases hstep with
      | sum => exact .observeInsert later
  | observeInsert later => cases hstep
  | @collect i quantile readings w now length short sorted past left =>
      cases hstep with
      | @get _ _ _ _ q value w' more got =>
          obtain ⟨hi, rfl⟩ := List.getElem?_eq_some_iff.mp more
          have hlength : (readings ++ [now]).length = i + 1 := by
            rw [List.length_append, length, List.length_singleton]
          refine .collect hlength hi ?_ ?_ ?_
          · rw [← List.cons_append, List.pairwise_append]
            refine ⟨sorted, List.pairwise_singleton _ _, fun reading hreading _ hnow => ?_⟩
            exact List.mem_singleton.mp hnow ▸ past reading hreading
          · intro reading hreading
            rw [← List.cons_append, List.mem_append, List.mem_singleton] at hreading
            exact hreading.elim (past reading) Int.le_of_eq
          · intro clock hclock
            rw [List.range_succ, List.map_append, List.map_singleton] at hclock
            obtain ⟨hbefore, hlast⟩ := List.append_inj' hclock rfl
            rw [left clock hbefore, List.drop_eq_getElem_cons hi,
              collectLoop_of_get (List.singleton_inj.mp hlast ▸ got), Option.map_map]
            simp [Function.comp_def]

/-- A section that ends has made a call of the only caller, with readings between the times. -/
theorem During.finish {v v' : Timed} {a : Summary × Int} {op : Invocation} {at_ : Section}
    {r : Response} (h : During a op at_ v) (hstep : Section.Step at_ v (.inr r) v') :
    Performs a op r (v'.summary, v'.now) := by
  cases h with
  | observeCount later => cases hstep
  | observeSum later => cases hstep
  | @observeInsert value now later =>
      cases hstep with
      | @insert _ _ _ w inserted =>
          refine ⟨.observe now value, rfl, ?_, ?_, ?_⟩
          · show Option.map _ (Option.bind _ _) = _
            rw [inserted]
            rfl
          · simpa [Monotone, Call.readings] using later
          · simpa [Call.readings] using later
  | @collect i quantile readings w now length short sorted past left =>
      cases hstep with
      | report no_more =>
          have hall : a.1.quantiles_.length = i :=
            le_antisymm (List.getElem?_eq_none_iff.mp no_more) short
          -- The clock as it was read.
          have hclock : (List.range i).map (fun j => readings.getD j now) = readings := by
            apply List.ext_getElem
            · simp [length]
            · intro j hj hj'
              simp [List.getElem?_eq_getElem hj']
          refine ⟨.collect fun j => readings.getD j now, rfl, ?_, ?_, ?_⟩
          · have hloop := left _ hclock
            rw [← hall, List.drop_length] at hloop
            show Option.map _ (Option.bind _ _) = _
            rw [hloop]
            simp [collectLoop]
          · show (a.2 :: (Call.readings a.1.quantiles_ _ ++ [])).Pairwise _
            rwa [Call.readings, hall, hclock, List.append_nil]
          · rwa [Call.readings, hall, hclock]

theorem realizes : Realizes methods Performs Abs During where
  enter_step _ := rfl
  enter_environment _ := rfl
  returns _ hreturn := nomatch hreturn
  enters habs henter := Sum.inl.inj henter ▸ .of_enter habs _
  works hduring hstep := hduring.work hstep
  finishes hduring hstep := ⟨_, hduring.finish hstep, rfl, le_refl _⟩
  abs_environment habs hhappens := ⟨hhappens.1.trans habs.1, habs.2.trans hhappens.2⟩
  during_environment hduring hhappens := hduring.later hhappens.1 hhappens.2

/-! ## The timed run of the threads -/

/-- The calls in the order in which they took effect are a run of one caller whose clock never goes
back. -/
theorem run_of_sequential {ι : Type} {a₀ a : Summary × Int}
    {log : List (ι × Invocation × Response)} (h : Sequential Performs a₀ log a) :
    ∃ calls : List Call, calls.map Call.invocation = log.map (fun entry => entry.2.1) ∧
      a₀.1.run calls = some a.1 ∧ a.1.quantiles_ = a₀.1.quantiles_ ∧
      Monotone a₀.1.quantiles_ a₀.2 calls ∧
      ∀ reading ∈ a₀.2 :: calls.flatMap (Call.readings a₀.1.quantiles_), reading ≤ a.2 := by
  induction h with
  | nil => exact ⟨[], rfl, rfl, rfl, List.pairwise_singleton _ _, by simp⟩
  | @concat log a a' op r before t done ih =>
      obtain ⟨calls, hops, hrun, hsame, hmono, hpast⟩ := ih
      obtain ⟨call, rfl, hperform, hnext, hlast⟩ := done
      have hstep := perform_snd hperform
      rw [hsame] at hnext hlast
      rw [Monotone, List.flatMap_singleton, List.pairwise_cons] at hnext
      refine ⟨calls ++ [call], by simp [hops], ?_, (step_fields hstep).1.trans hsame, ?_, ?_⟩
      · rw [run, List.foldlM_append, ← run, hrun]
        simpa using hstep
      · rw [Monotone, List.flatMap_append, List.flatMap_singleton, ← List.cons_append,
          List.pairwise_append]
        exact ⟨hmono, hnext.2, fun r hr r' hr' => (hpast r hr).trans (hnext.1 r' hr')⟩
      · intro r hr
        rw [List.flatMap_append, List.flatMap_singleton, ← List.cons_append, List.mem_append] at hr
        rcases hr with hr | hr
        · exact (hpast r hr).trans (hlast _ List.mem_cons_self)
        · exact hlast r (List.mem_cons_of_mem _ hr)

section Threads

variable {ι : Type} [DecidableEq ι] {es : List (Event ι Invocation Response)} {s₀ : Summary}
  {t₀ : Int} {c : Config ι Invocation (Guarded ι Timed) (Place Invocation Response Section)}

/-- However the threads and the clock are interleaved, the calls are those of an atomic summary,
and in the order in which they take effect they make one run of timed calls whose clock never goes
back. -/
theorem summary_linearizable
    (h : Run (Config.Step (locked methods)) (Config.new ⟨none, ⟨s₀, t₀⟩⟩) es c) :
    ∃ (a : Atomic ι Invocation Response (Summary × Int)) (calls : List Call),
      Run (Atomic.Step Performs) (Atomic.new (s₀, t₀)) es a ∧
      calls.map Call.invocation = a.log.map (fun entry => entry.2.1) ∧
      s₀.run calls = some a.state.1 ∧ Monotone s₀.quantiles_ t₀ calls ∧
      (c.shared.holder = none → c.shared.value.summary = a.state.1) ∧
      ∀ t, c.threads t = none → a.status t = .idle := by
  have h₀ : Abs ⟨s₀, t₀⟩ (s₀, t₀) := ⟨rfl, le_refl _⟩
  obtain ⟨a, hrun, hcorresponds⟩ := realizes.linearizable h₀ h
  obtain ⟨calls, hops, hcalls, -, hmono, -⟩ := run_of_sequential hrun.sequential
  exact ⟨a, calls, hrun, hops, hcalls, hmono, fun hfree => (hcorresponds.free hfree).1,
    fun t ht => (ht ▸ hcorresponds.threads t).of_none.1⟩

/-- What a `Collect` returns among other calls: the count, the sum and the quantiles after some timed
calls, made one after the other with a clock that does not go back. All calls that had returned when
it began are among them, and only calls that had begun when it returned, each of them once. -/
theorem threads_collect_window {quantiles : List CKMSQuantiles.Quantile} {max_age age_buckets : Int}
    (hnew : new quantiles max_age age_buckets t₀ = .ok s₀) {t : ι} {r : Response}
    {es₁ es₂ es₃ : List (Event ι Invocation Response)}
    (h : Run (Config.Step (locked methods)) (Config.new ⟨none, ⟨s₀, t₀⟩⟩)
      (es₁ ++ .invoke t .collect :: (es₂ ++ .respond t r :: es₃)) c)
    (hother : ∀ e ∈ es₂, e.thread ≠ t) :
    ∃ (seen : List (ι × Invocation)) (calls : List Call) (clock : Nat → Int),
      calls.map Call.invocation = seen.map Prod.snd ∧
      (returned es₁).Subperm seen ∧ seen.Subperm (invoked (es₁ ++ es₂)) ∧
      Monotone quantiles t₀ (calls ++ [.collect clock]) ∧
      r = .metric (reported quantiles t₀ ((max_age * ticksPerMillisecond).tdiv age_buckets)
        age_buckets.toNat calls clock) := by
  obtain ⟨a, -, hrun, -⟩ := summary_linearizable h
  obtain ⟨log, s, s', hlog, ⟨call, hcall, hperform, hnext, -⟩, hbefore, hafter⟩ := hrun.seen hother
  obtain ⟨calls, hops, hcalls, hsame, hmono, hpast⟩ := run_of_sequential hlog
  have hquantiles : s₀.quantiles_ = quantiles := by
    obtain ⟨-, rfl⟩ := new_eq_ok_iff.mp hnew
    rfl
  cases call with
  | observe now value => cases hcall
  | collect clock =>
      refine ⟨logged log, calls, clock, ?_, hbefore, hafter, ?_, ?_⟩
      · rw [hops, logged, List.map_map]
        rfl
      · rw [hsame, Monotone, List.flatMap_singleton, List.pairwise_cons] at hnext
        rw [← hquantiles, Monotone, List.flatMap_append, List.flatMap_singleton, ← List.cons_append,
          List.pairwise_append]
        exact ⟨hmono, hnext.2, fun now hnow now' hnow' => (hpast now hnow).trans (hnext.1 now' hnow')⟩
      · obtain ⟨⟨metric, s₁⟩, hcollect, heq⟩ := Option.map_eq_some_iff.mp hperform
        obtain rfl := (Prod.mk.inj heq).1
        exact congrArg Response.metric ((run_collect_window hnew calls clock).2.1 _ _ hcalls hcollect)

/-- One thread collects two quantiles and another one observes. The clock goes on between the queries,
over a rotation boundary, and the observation waits until both are answered. -/
def collecting : List (Event Bool Invocation Response) :=
  [.invoke false .collect, .invoke true (.observe (.fin 3)),
    .respond false (.metric { summary :=
      { sample_count := 0, sample_sum := 0
        quantile := [⟨.ofRat (1 / 2), .nan⟩, ⟨.ofRat (1 / 2), .nan⟩] } }),
    .respond true .done]

theorem tick (ticks : Nat)
    (c : Config ι Invocation (Guarded ι Timed) (Place Invocation Response Section)) :
    Config.Step (locked methods) c none { c with
      shared := ⟨c.shared.holder, c.shared.value.summary, c.shared.value.now + ticks⟩ } :=
  .environment ⟨⟨rfl, Int.le_add_of_nonneg_right (Int.natCast_nonneg ticks)⟩, rfl⟩

theorem exists_collecting : ∃ s₀, new [median.toQuantile, median.toQuantile] 10 2 0 = .ok s₀ ∧
    ∃ c : Config Bool Invocation (Guarded Bool Timed) (Place Invocation Response Section),
      Run (Config.Step (locked methods)) (Config.new ⟨none, ⟨s₀, 0⟩⟩) collecting c ∧
        c.shared.holder = none ∧ ∀ t, c.threads t = none := by
  refine ⟨_, rfl, ?_⟩
  have hbegun : Run (Config.Step (locked methods)) (Config.new ⟨none, ⟨{
      quantiles_ := [median.toQuantile, median.toQuantile]
      quantile_values_ := .new (CKMSQuantiles.new [median.toQuantile, median.toQuantile])
        (10 * ticksPerMillisecond) 2 0 }, 0⟩⟩)
      [.invoke false .collect, .invoke true (.observe (.fin 3))] _ :=
    .visible (.visible .init (.invoke (t := false) _ rfl)) (.invoke (t := true) _ rfl)
  have hentered := Run.silent (.silent hbegun (.internal (t := true) rfl (.enter rfl)))
    (.internal (t := false) rfl (.enter rfl))
  have hasked := Run.silent (.silent hentered (.internal (t := false) rfl (.lock rfl)))
    (.internal (t := false) rfl (.work (.get rfl rfl)))
  have hlater := Run.silent hasked (tick 5000001 _)
  have hcollected := Run.visible (.silent (.silent hlater
    (.internal (t := false) rfl (.work (.get rfl rfl))))
    (.internal (t := false) rfl (.finish (.report rfl)))) (.respond (t := false) rfl .unlock)
  have hobserved := Run.visible (.silent (.silent (.silent (.silent hcollected
    (.internal (t := true) rfl (.lock rfl)))
    (.internal (t := true) rfl (.work .count)))
    (.internal (t := true) rfl (.work .sum)))
    (.internal (t := true) rfl (.finish (.insert rfl)))) (.respond (t := true) rfl .unlock)
  refine ⟨_, hobserved, rfl, ?_⟩
  intro t
  cases t <;> rfl

theorem summary_linearizable_of_two :
    ∃ s₀, new [median.toQuantile, median.toQuantile] 10 2 0 = .ok s₀ ∧
      ∃ (a : Atomic Bool Invocation Response (Summary × Int)) (calls : List Call),
        Run (Atomic.Step Performs) (Atomic.new (s₀, 0)) collecting a ∧
        s₀.run calls = some a.state.1 ∧ Monotone s₀.quantiles_ 0 calls := by
  obtain ⟨s₀, hnew, c, hrun, -⟩ := exists_collecting
  obtain ⟨a, calls, ha, -, hcalls, hmono, -⟩ := summary_linearizable hrun
  exact ⟨s₀, hnew, a, calls, ha, hcalls, hmono⟩

/-- One thread observes twice and collects, another one observes meanwhile. The clock goes on. -/
def observingAndCollecting (r : Response) : List (Event Bool Invocation Response) :=
  [.invoke false (.observe (.fin 1)), .respond false .done, .invoke false (.observe (.fin 2)),
    .respond false .done, .invoke false .collect, .invoke true (.observe (.fin 4)),
    .respond false r, .respond true .done]

/-- With an interval of at least a tick, an observation by a thread that is alone ends. -/
theorem exists_observe {k I : Int} (hI : 0 < I) {s : Summary}
    (h : TimeWindowQuantiles.Shape k I s.quantile_values_) (now : Int) (value : Number) :
    ∃ s' : Summary, TimeWindowQuantiles.Shape k I s'.quantile_values_ ∧
      s'.quantiles_ = s.quantiles_ ∧ Run (Config.Step (locked methods))
        ⟨⟨none, ⟨s, now⟩⟩, fun _ : Bool => none⟩
        [.invoke false (.observe value), .respond false .done]
        ⟨⟨none, ⟨s', now⟩⟩, fun _ => none⟩ := by
  obtain ⟨⟨s', hstep⟩, -⟩ := exists_step hI h (.observe now value)
  obtain ⟨w, hinsert, hs'⟩ := Option.bind_eq_some_iff.mp hstep
  have hkept := invariant_step (TimeWindowQuantiles.shape_invariant k I) h hstep
  obtain rfl := Option.some.inj hs'
  have hbegun : Run (Config.Step (locked methods)) ⟨⟨none, ⟨s, now⟩⟩, fun _ : Bool => none⟩
      [.invoke false (.observe value)] _ := .visible .init (.invoke (t := false) _ rfl)
  have hentered := Run.silent hbegun (.internal (t := false) rfl (.enter rfl))
  have hobserved := Run.visible (.silent (.silent (.silent (.silent hentered
    (.internal (t := false) rfl (.lock rfl))) (.internal (t := false) rfl (.work .count)))
    (.internal (t := false) rfl (.work .sum)))
    (.internal (t := false) rfl (.finish (.insert hinsert)))) (.respond (t := false) rfl .unlock)
  simp only [Function.update_idem] at hobserved
  rw [Function.update_eq_self_iff.mpr rfl] at hobserved
  exact ⟨_, hkept, rfl, hobserved⟩

theorem exists_observingAndCollecting : ∃ s₀, new [median.toQuantile] 10 2 0 = .ok s₀ ∧
    ∃ (r : Response)
      (c : Config Bool Invocation (Guarded Bool Timed) (Place Invocation Response Section)),
      Run (Config.Step (locked methods)) (Config.new ⟨none, ⟨s₀, 0⟩⟩) (observingAndCollecting r) c := by
  have hnew : new [median.toQuantile] 10 2 0 = .ok _ := rfl
  have hI : 0 < (10 * ticksPerMillisecond).tdiv 2 := by decide
  obtain ⟨s₁, h₁, hq₁, hfirst⟩ := exists_observe hI (new_shape hnew) 0 (.fin 1)
  obtain ⟨s₂, h₂, hq₂, hsecond⟩ := exists_observe hI h₁ 6000000 (.fin 2)
  have hquantiles : s₂.quantiles_ = [median.toQuantile] := hq₂.trans hq₁
  obtain ⟨⟨value, w⟩, hget, hw⟩ := exists_get hI h₂ 12000000 median.toQuantile.quantile
  -- The window after the query takes the third observation.
  obtain ⟨⟨s₃, hobserve⟩, -⟩ := exists_step hI (s := { s₂ with quantile_values_ := w }) hw
    (.observe 12000000 (.fin 4))
  obtain ⟨w', hinsert, -⟩ := Option.bind_eq_some_iff.mp hobserve
  have hobserved := (Run.silent hfirst (tick 6000000 _)).trans hsecond
  have hbegun := Run.silent (.silent (.silent (.visible (.visible
    (.silent hobserved (tick 6000000 _))
    (.invoke (t := false) .collect rfl)) (.invoke (t := true) (.observe (.fin 4)) rfl))
    (.internal (t := true) rfl (.enter rfl))) (.internal (t := false) rfl (.enter rfl)))
    (.internal (t := false) rfl (.lock rfl))
  have hasked := Run.silent hbegun (.internal (t := false) rfl
    (.work (.get (by rw [hquantiles]; rfl) hget)))
  have hcollected := Run.visible (.silent hasked (.internal (t := false) rfl
    (.finish (.report (by show s₂.quantiles_[1]? = none; rw [hquantiles]; rfl)))))
    (.respond (t := false) rfl .unlock)
  have hthird := Run.visible (.silent (.silent (.silent (.silent hcollected
    (.internal (t := true) rfl (.lock rfl))) (.internal (t := true) rfl (.work .count)))
    (.internal (t := true) rfl (.work .sum))) (.internal (t := true) rfl (.finish (.insert hinsert))))
    (.respond (t := true) rfl .unlock)
  exact ⟨_, hnew, _, _, hthird⟩

theorem threads_collect_window_of_two : ∃ s₀, new [median.toQuantile] 10 2 0 = .ok s₀ ∧
    ∃ (r : Response)
      (c : Config Bool Invocation (Guarded Bool Timed) (Place Invocation Response Section)),
      Run (Config.Step (locked methods)) (Config.new ⟨none, ⟨s₀, 0⟩⟩) (observingAndCollecting r) c ∧
      ∃ (seen : List (Bool × Invocation)) (calls : List Call) (clock : Nat → Int),
        calls.map Call.invocation = seen.map Prod.snd ∧
        List.Subperm [(false, .observe (.fin 1)), (false, .observe (.fin 2))] seen ∧
        seen.Subperm [(false, .observe (.fin 1)), (false, .observe (.fin 2)),
          (true, .observe (.fin 4))] ∧
        r = .metric (reported [median.toQuantile] 0 5000000 2 calls clock) := by
  obtain ⟨s₀, hnew, r, c, hrun⟩ := exists_observingAndCollecting
  have hcollecting : Run (Config.Step (locked methods)) (Config.new ⟨none, ⟨s₀, 0⟩⟩)
      ((observingAndCollecting r).take 4 ++ .invoke false .collect ::
        ([.invoke true (.observe (.fin 4))] ++ .respond false r :: [.respond true .done])) c := hrun
  obtain ⟨seen, calls, clock, hops, hbefore, hafter, -, hr⟩ :=
    threads_collect_window hnew hcollecting (by simp [Event.thread])
  exact ⟨s₀, hnew, r, c, hrun, seen, calls, clock, hops, hbefore, hafter, hr⟩

end Threads

end PrometheusCpp.Summary
