/-
# PrometheusCpp.Core.GaugeThreads -- gauges and counters with many threads at once

`Gauge::Change` adds with one `fetch_add` where the library has it for doubles. Before C++20 it
loads the value and tries to exchange it for the sum until nobody has changed it in between; the
weak exchange may also fail for no reason. Either way every call takes effect at once
(`gauge_linearizable`): no increment is lost to another thread or made twice
(`threads_no_lost_update`), and a counter that is only incremented never reads less than before
(`Counter.threads_reads_monotone`).
-/
import PrometheusCpp.Core.ClientMetric
import PrometheusCpp.Lib.Linearization
import Mathlib.Algebra.BigOperators.Group.List.Basic

namespace PrometheusCpp

open Linearization

/-! ## The calls -/

/-- What a call on a metric object returns or throws. -/
inductive Response where
  | done
  | value (x : Double)
  | metric (collected : ClientMetric)
  | threw (e : Exception)
  deriving DecidableEq

namespace Gauge

inductive Call where
  | increment (value : Double)
  | decrement (value : Double)
  | set (value : Double)
  | setToCurrentTime (time : Int)
  | value
  | collect
  deriving DecidableEq

/-- A call by the only caller. -/
def perform (g : Gauge) : Call → Response × Gauge
  | .increment value => (.done, g.increment value)
  | .decrement value => (.done, g.decrement value)
  | .set value => (.done, g.set value)
  | .setToCurrentTime time => (.done, g.setToCurrentTime time)
  | .value => (.value g.value, g)
  | .collect => (.metric g.collect, g)

/-- The access to the atomic `value_` that a call comes down to. -/
inductive Access where
  | change (value : Double)
  | store (value : Double)
  | load (result : Double → Response)
  /-- The call returns without one. -/
  | none

def Call.access : Call → Access
  | .increment x => .change x
  | .decrement x => .change (-1 * x)
  | .set x => .store x
  | .setToCurrentTime time => .store time
  | .value => .load .value
  | .collect => .load fun x => .metric { gauge := x }

/-! ## The threads -/

/-- Where a thread is: at its access, or in the loop of `Change` with the value it last saw. -/
inductive Place where
  | accessing (access : Access)
  | exchanging (value current : Double)

/-- The atomic accesses; `cpp_lib_atomic_float` tells which body `Change` has. -/
inductive ThreadStep (cpp_lib_atomic_float : Bool) :
    Place → Gauge → Place ⊕ Response → Gauge → Prop
  | fetchAdd {g : Gauge} (value : Double) (available : cpp_lib_atomic_float = true) :
      ThreadStep cpp_lib_atomic_float (.accessing (.change value)) g (.inr .done)
        ⟨g.value_ + value⟩
  | loadCurrent {g : Gauge} (value : Double) (unavailable : cpp_lib_atomic_float = false) :
      ThreadStep cpp_lib_atomic_float (.accessing (.change value)) g
        (.inl (.exchanging value g.value_)) g
  | exchange {g : Gauge} {value current : Double} (unchanged : g.value_ = current) :
      ThreadStep cpp_lib_atomic_float (.exchanging value current) g (.inr .done) ⟨current + value⟩
  /-- A failed exchange loads the value anew. -/
  | exchangeFails {g : Gauge} {value current : Double} :
      ThreadStep cpp_lib_atomic_float (.exchanging value current) g
        (.inl (.exchanging value g.value_)) g
  | store {g : Gauge} (value : Double) :
      ThreadStep cpp_lib_atomic_float (.accessing (.store value)) g (.inr .done) ⟨value⟩
  | load {g : Gauge} (result : Double → Response) :
      ThreadStep cpp_lib_atomic_float (.accessing (.load result)) g (.inr (result g.value_)) g
  | none {g : Gauge} :
      ThreadStep cpp_lib_atomic_float (.accessing .none) g (.inr .done) g

/-- An object around one gauge, whose calls come down to these accesses. -/
def accessed {ι Op : Type} (access : Op → Access) (cpp_lib_atomic_float : Bool) :
    Implementation ι Op Response Gauge Place where
  start op := .accessing (access op)
  step _ := ThreadStep cpp_lib_atomic_float
  environment _ _ := False

def threads {ι : Type} (cpp_lib_atomic_float : Bool) :
    Implementation ι Call Response Gauge Place := accessed Call.access cpp_lib_atomic_float

/-! ## Every call takes effect at once -/

/-- The place belongs to the access. -/
def Access.Serves (access : Access) : Place → Prop
  | .accessing access' => access' = access
  | .exchanging value _ => access = .change value

/-- What an access does by itself. -/
def Access.perform (g : Gauge) : Access → Response × Gauge
  | .change value => (.done, g.change value)
  | .store value => (.done, g.set value)
  | .load result => (result g.value, g)
  | .none => (.done, g)

section Accessed

variable {ι Op : Type} [DecidableEq ι] {access : Op → Access} {cpp_lib_atomic_float : Bool}

/-- Either body of `Change` takes effect at once, in the exchange that succeeds. -/
theorem accessed_linearizable {spec : Gauge → Op → Response → Gauge → Prop}
    (hspec : ∀ {g op r g'}, (access op).perform g = (r, g') → spec g op r g') {g₀ : Gauge}
    {es : List (Event ι Op Response)} {c : Config ι Op Gauge Place}
    (h : Run (Config.Step (accessed access cpp_lib_atomic_float)) (Config.new g₀) es c) :
    ∃ a, Run (Atomic.Step spec) (Atomic.new g₀) es a ∧ a.state = c.shared ∧
      ∀ t, c.threads t = none → a.status t = .idle := by
  suffices hcommits : ∃ a, Run (Atomic.Step spec) (Atomic.new g₀) es a ∧ a.state = c.shared ∧
      ∀ t, Uncommitted (fun op => (access op).Serves) (c.threads t) (a.status t) by
    obtain ⟨a, hrun, hstate, hthreads⟩ := hcommits
    exact ⟨a, hrun, hstate, fun t ht => (ht ▸ hthreads t).eq_idle⟩
  refine linearizable_of_commits (fun op => (access op).Serves) ?_ ?_ ?_ (fun _ _ => not_false) h
  · exact fun op => rfl
  · intro t op place g place' g' hserves taken
    cases taken with
    | loadCurrent value unavailable => exact ⟨hserves.symm, rfl⟩
    | exchangeFails => exact ⟨hserves, rfl⟩
  · intro t op place g r g' hserves taken
    apply hspec
    cases taken with
    | fetchAdd value available => rw [← (hserves : Access.change value = access op)]; rfl
    | exchange unchanged =>
        rw [(hserves : access op = _), ← unchanged]
        rfl
    | store value => rw [← (hserves : Access.store value = access op)]; rfl
    | load result => rw [← (hserves : Access.load result = access op)]; rfl
    | none => rw [← (hserves : Access.none = access op)]; rfl

end Accessed

/-- A gauge as its callers know it. -/
def Performs (g : Gauge) (call : Call) (r : Response) (g' : Gauge) : Prop :=
  g.perform call = (r, g')

theorem Call.perform_access {g g' : Gauge} {call : Call} {r : Response}
    (h : call.access.perform g = (r, g')) : Performs g call r g' := by
  have hperform : call.access.perform g = g.perform call := by cases call <;> rfl
  exact hperform.symm.trans h

/-- What a call adds to the value; nothing when it replaces the value or is not finite. -/
def Call.delta : Call → Option ℚ
  | .increment (.num (.fin x)) => some x
  | .decrement (.num (.fin x)) => some (-x)
  | .value => some 0
  | .collect => some 0
  | _ => none

theorem Performs.delta {g g' : Gauge} {call : Call} {r : Response} (h : Performs g call r g')
    {x d : ℚ} (hg : g.value_ = .ofRat x) (hd : call.delta = some d) : g'.value_ = .ofRat (x + d) := by
  obtain rfl := (Prod.mk.inj h).2
  obtain ⟨value⟩ := g
  obtain rfl : value = .ofRat x := hg
  unfold Call.delta at hd
  split at hd
  · rw [← Option.some.inj hd]
    rfl
  · rw [← Option.some.inj hd]
    show Double.ofRat x + Double.ofRat (-1) * Double.ofRat _ = _
    rw [Double.ofRat_mul, Double.ofRat_add, neg_one_mul]
  · rw [← Option.some.inj hd, add_zero]
  · rw [← Option.some.inj hd, add_zero]
  · cases hd

/-- The value is the sum of what the calls of the log added. -/
theorem value_of_sequential {ι : Type} {x₀ : ℚ} {log : List (ι × Call × Response)} {g : Gauge}
    (h : Sequential (fun g call r g' => call.delta.isSome ∧ Performs g call r g')
      ⟨.ofRat x₀⟩ log g) :
    g.value_ = .ofRat (x₀ + (log.filterMap fun entry => entry.2.1.delta).sum) := by
  induction h with
  | nil => rw [List.filterMap_nil, List.sum_nil, add_zero]
  | @concat log g g' call r before t done ih =>
      obtain ⟨d, hd⟩ := Option.isSome_iff_exists.mp done.1
      rw [done.2.delta ih hd, List.filterMap_append, List.sum_append, ← add_assoc]
      simp [hd]

section Threads

variable {ι : Type} [DecidableEq ι] {cpp_lib_atomic_float : Bool} {es : List (Event ι Call Response)}

/-- With either body of `Change`, and however the accesses of the threads are interleaved, the calls
are those of an atomic gauge with the same value. -/
theorem gauge_linearizable {g₀ : Gauge} {c : Config ι Call Gauge Place}
    (h : Run (Config.Step (threads cpp_lib_atomic_float)) (Config.new g₀) es c) :
    ∃ a, Run (Atomic.Step Performs) (Atomic.new g₀) es a ∧ a.state = c.shared ∧
      ∀ t, c.threads t = none → a.status t = .idle :=
  accessed_linearizable Call.perform_access h

/-- A call can always be finished, whatever the others are in the middle of. -/
theorem threads_finish_alone {c : Config ι Call Gauge Place} {t : ι}
    (hcalling : (c.threads t).isSome) : ∃ r c',
      Run (Config.Step (threads cpp_lib_atomic_float)) c [.respond t r] c' ∧
      ∀ u, u ≠ t → c'.threads u = c.threads u := by
  obtain ⟨⟨call, place⟩, hplace⟩ := Option.isSome_iff_exists.mp hcalling
  have hother : ∀ u, u ≠ t → Function.update c.threads t none u = c.threads u :=
    fun u hu => Function.update_of_ne hu _ _
  -- A thread that has just loaded the value finds it unchanged.
  have hloaded : ∀ {c : Config ι Call Gauge Place} {value : Double},
      c.threads t = some (call, .exchanging value c.shared.value_) →
      Config.Step (threads cpp_lib_atomic_float) c (some (.respond t .done))
        { shared := ⟨c.shared.value_ + value⟩, threads := Function.update c.threads t none } :=
    fun hplace => .respond hplace (.exchange rfl)
  have hload : ∀ {value : Double},
      Config.Step (threads cpp_lib_atomic_float) c none
        { c with threads :=
            Function.update c.threads t (some (call, .exchanging value c.shared.value_)) } →
      ∃ r c', Run (Config.Step (threads cpp_lib_atomic_float)) c [.respond t r] c' ∧
        ∀ u, u ≠ t → c'.threads u = c.threads u := by
    intro value hstep
    refine ⟨.done, _, .visible (.silent .init hstep) (hloaded (Function.update_self ..)), ?_⟩
    intro u hu
    simp only [Function.update_idem]
    exact hother u hu
  cases place with
  | exchanging value current => exact hload (.internal hplace .exchangeFails)
  | accessing access =>
      cases access with
      | change value =>
          cases cpp_lib_atomic_float with
          | true => exact ⟨_, _, .visible .init (.respond hplace (.fetchAdd value rfl)), hother⟩
          | false => exact hload (.internal hplace (.loadCurrent value rfl))
      | store value => exact ⟨_, _, .visible .init (.respond hplace (.store value)), hother⟩
      | load result => exact ⟨_, _, .visible .init (.respond hplace (.load result)), hother⟩
      | none => exact ⟨_, _, .visible .init (.respond hplace .none), hother⟩

/-- When all calls have returned and none has replaced the value, every amount has been added once,
whatever the threads did to each other's exchanges. -/
theorem threads_no_lost_update {x₀ : ℚ} {c : Config ι Call Gauge Place}
    (h : Run (Config.Step (threads cpp_lib_atomic_float)) (Config.new ⟨.ofRat x₀⟩) es c)
    (hquiet : ∀ t, c.threads t = none)
    (hadds : ∀ entry ∈ invoked es, entry.2.delta.isSome) :
    c.shared.value_ = .ofRat (x₀ + ((invoked es).filterMap fun entry => entry.2.delta).sum) := by
  obtain ⟨a, hrun, hstate, hidle⟩ := accessed_linearizable Call.perform_access h
  have hallowed : ∀ t call, .invoke t call ∈ es → call.delta.isSome := fun t call hmem =>
    hadds (t, call) (mem_invoked hmem)
  have hperm := hrun.invoked_perm fun t => hidle t (hquiet t)
  have hvalue := value_of_sequential (hrun.restrict hallowed).sequential
  rw [← hstate, hvalue, (hperm.filterMap _).sum_eq, List.filterMap_map]
  rfl

/-! ### A race -/

/-- Two threads call `Increment`, and both load the value before either exchanges it. -/
def race : List (Event Bool Call Response) :=
  [.invoke false (.increment 1), .invoke true (.increment 2), .respond false .done,
    .respond true .done]

/-- The exchange of the second one fails once. -/
theorem exists_race : ∃ c : Config Bool Call Gauge Place,
    Run (Config.Step (threads false)) (Config.new ⟨.ofRat 0⟩) race c ∧
      (∀ t, c.threads t = none) ∧ c.shared.value_ = .ofRat 3 := by
  refine ⟨_, .visible (.silent (.visible (.silent (.silent (.visible (.visible .init
    (.invoke (t := false) _ rfl)) (.invoke (t := true) _ rfl))
    (.internal (t := false) rfl (.loadCurrent 1 rfl)))
    (.internal (t := true) rfl (.loadCurrent 2 rfl)))
    (.respond (t := false) rfl (.exchange rfl)))
    (.internal (t := true) rfl .exchangeFails))
    (.respond (t := true) rfl (.exchange rfl)), ?_, ?_⟩
  · intro t
    cases t <;> rfl
  · show Double.ofRat 0 + 1 + 2 = _
    rw [Double.one_eq, Double.ofNat_eq, Double.ofRat_add, Double.ofRat_add]
    norm_num

theorem gauge_linearizable_of_two : ∃ a : Atomic Bool Call Response Gauge,
    Run (Atomic.Step Performs) (Atomic.new ⟨.ofRat 0⟩) race a ∧ a.state.value_ = .ofRat 3 := by
  obtain ⟨c, hrun, -, hvalue⟩ := exists_race
  obtain ⟨a, ha, hstate, -⟩ := gauge_linearizable hrun
  exact ⟨a, ha, hstate ▸ hvalue⟩

theorem threads_no_lost_update_of_two : ∃ c : Config Bool Call Gauge Place,
    Run (Config.Step (threads false)) (Config.new ⟨.ofRat 0⟩) race c ∧
      c.shared.value_ = .ofRat (0 + ([1, 2] : List ℚ).sum) := by
  obtain ⟨c, hrun, hquiet, -⟩ := exists_race
  exact ⟨c, hrun, threads_no_lost_update hrun hquiet (by decide)⟩

end Threads

end Gauge

/-! ## Counters -/

namespace Counter

inductive Call where
  | increment
  | incrementBy (val : Double)
  | reset
  | value
  | collect
  deriving DecidableEq

/-- A call by the only caller. -/
def perform (c : Counter) : Call → Response × Counter
  | .increment => (.done, c.increment)
  | .incrementBy val => (.done, c.incrementBy val)
  | .reset => (.done, c.reset)
  | .value => (.value c.value, c)
  | .collect => (.metric c.collect, c)

/-- The access to the gauge's `value_`; there is none for a negative amount. -/
def Call.access : Call → Gauge.Access
  | .increment => .change 1
  | .incrementBy val => if val.lt 0 then .none else .change val
  | .reset => .store 0
  | .value => .load .value
  | .collect => .load fun x => .metric { counter := x }

def threads {ι : Type} (cpp_lib_atomic_float : Bool) :
    Implementation ι Call Response Gauge Gauge.Place :=
  Gauge.accessed Call.access cpp_lib_atomic_float

/-- A counter as its callers know it, around the gauge. -/
def Performs (gauge_ : Gauge) (call : Call) (r : Response) (gauge_' : Gauge) : Prop :=
  perform ⟨gauge_⟩ call = (r, ⟨gauge_'⟩)

theorem Call.perform_access {g g' : Gauge} {call : Call} {r : Response}
    (h : call.access.perform g = (r, g')) : Performs g call r g' := by
  cases call with
  | incrementBy val =>
      show (Response.done, if val.lt 0 then (⟨g⟩ : Counter) else ⟨g.increment val⟩) = _
      dsimp only [Call.access] at h
      split_ifs at h ⊢
      · obtain ⟨rfl, rfl⟩ := Prod.mk.inj h
        rfl
      · obtain ⟨rfl, rfl⟩ := Prod.mk.inj h
        rfl
  | _ =>
      obtain ⟨rfl, rfl⟩ := Prod.mk.inj h
      rfl

/-- The call neither resets the counter nor adds NaN. -/
def Call.counts : Call → Bool
  | .incrementBy val => val ≠ .nan
  | .reset => false
  | _ => true

/-- Adding what is not negative to a value that is not negative. -/
theorem exists_num_add {v : Number} {val : Double} (hv : .fin 0 ≤ v) (hnan : val ≠ .nan)
    (hval : val.lt 0 = false) : ∃ w, Double.num v + val = .num w ∧ v ≤ w := by
  cases val with
  | nan => exact absurd rfl hnan
  | num u =>
      have hu : Number.fin 0 ≤ u := by simpa [Double.ofRat] using hval
      cases v with
      | negInf => exact absurd hv (by decide)
      | posInf => cases u <;> first | exact ⟨_, rfl, le_refl _⟩ | exact absurd hu (by decide)
      | fin x =>
          cases u with
          | negInf => exact absurd hu (by decide)
          | posInf => exact ⟨.posInf, rfl, Number.le_posInf _⟩
          | fin y =>
              refine ⟨.fin (x + y), rfl, ?_⟩
              rw [Number.fin_le_fin] at hu ⊢
              exact le_add_of_nonneg_right hu

/-- The gauge has a value that is not negative and at least the given one. -/
def AtLeast (v : Number) (g : Gauge) : Prop := ∃ w, g.value_ = .num w ∧ .fin 0 ≤ v ∧ v ≤ w

theorem Performs.atLeast {v : Number} {g g' : Gauge} {call : Call} {r : Response}
    (hg : AtLeast v g) (h : call.counts = true ∧ Performs g call r g') : AtLeast v g' := by
  obtain ⟨w, hw, hv, hle⟩ := hg
  obtain ⟨hcounts, h⟩ := h
  obtain rfl : (perform ⟨g⟩ call).2.gauge_ = g' := by rw [h]
  have hadd : ∀ {val : Double}, val ≠ .nan → val.lt 0 = false → AtLeast v (g.increment val) := by
    intro val hnan hval
    obtain ⟨u, hu, hwu⟩ := exists_num_add (hv.trans hle) hnan hval
    exact ⟨u, by rw [← hu, ← hw]; rfl, hv, hle.trans hwu⟩
  cases call with
  | increment => exact hadd nofun rfl
  | incrementBy val =>
      show AtLeast v (incrementBy ⟨g⟩ val).gauge_
      unfold incrementBy
      split_ifs with hval
      · exact ⟨w, hw, hv, hle⟩
      · exact hadd (of_decide_eq_true hcounts) (Bool.eq_false_iff.mpr hval)
  | reset => exact absurd hcounts Bool.false_ne_true
  | value => exact ⟨w, hw, hv, hle⟩
  | collect => exact ⟨w, hw, hv, hle⟩

section Threads

variable {ι : Type} [DecidableEq ι] {cpp_lib_atomic_float : Bool}
  {es : List (Event ι Call Response)} {c : Config ι Call Gauge Gauge.Place}

theorem counter_linearizable
    (h : Run (Config.Step (threads cpp_lib_atomic_float)) (Config.new {}) es c) :
    ∃ a, Run (Atomic.Step Performs) (Atomic.new {}) es a ∧ a.state = c.shared ∧
      ∀ t, c.threads t = none → a.status t = .idle :=
  Gauge.accessed_linearizable Call.perform_access h

/-- A thread that reads a counter after another one has read it, does not read less, unless the
counter is reset or NaN is added. -/
theorem threads_reads_monotone {t t' : ι} {x y : Double} (es₁ es₂ es₃ : List (Event ι Call Response))
    (h : Run (Config.Step (threads cpp_lib_atomic_float)) (Config.new {}) es c)
    (hes : es = es₁ ++ .respond t (.value x) ::
      (es₂ ++ .invoke t' .value :: (es₃ ++ [.respond t' (.value y)])))
    (hother : ∀ e ∈ es₃, e.thread ≠ t')
    (hcounts : ∀ entry ∈ invoked es, entry.2.counts = true) : x.le y = true := by
  obtain ⟨a, hrun, -, -⟩ := counter_linearizable h
  have hrun' := hrun.restrict (P := fun call => call.counts = true)
    fun t call hmem => hcounts (t, call) (mem_invoked hmem)
  rw [hes] at hrun'
  obtain ⟨call, g₁, g₁', g₂, g₂', hleads₁, hread₁, hleads₂, hread₂, -⟩ := hrun'.real_time hother
  obtain ⟨v, hv, -, hzero⟩ := hleads₁.invariant ⟨_, rfl, le_refl _, le_refl _⟩
    fun _ _ _ _ hg hspec => Performs.atLeast hg hspec
  obtain ⟨rfl, rfl⟩ : Double.num v = x ∧ g₁ = g₁' := by
    cases call <;> cases hread₁.2
    exact ⟨hv.symm, rfl⟩
  obtain ⟨w, hw, -, hle⟩ := hleads₂.invariant ⟨v, hv, hzero, le_refl _⟩
    fun _ _ _ _ hg hspec => Performs.atLeast hg hspec
  obtain rfl : Double.num w = y := by
    cases hread₂.2
    exact hw.symm
  simpa using hle

/-- A thread reads the counter, another one increments it, and then a third one reads it. -/
def reading : List (Event (Fin 3) Call Response) :=
  [.invoke 0 .value, .respond 0 (.value (.ofRat 0)), .invoke 1 .increment, .respond 1 .done,
    .invoke 2 .value, .respond 2 (.value (.ofRat (0 + 1)))]

theorem exists_reading : ∃ c : Config (Fin 3) Call Gauge Gauge.Place,
    Run (Config.Step (threads true)) (Config.new {}) reading c := by
  have hread : Run (Config.Step (threads true)) (Config.new {}) [_, _] _ :=
    .visible (.visible .init (.invoke (t := (0 : Fin 3)) Call.value rfl))
      (.respond (t := 0) rfl (.load .value))
  have hincrement := Run.visible (Run.visible hread (.invoke (t := 1) Call.increment rfl))
    (.respond (t := 1) rfl (.fetchAdd 1 rfl))
  exact ⟨_, .visible (.visible hincrement (.invoke (t := 2) Call.value rfl))
    (.respond (t := 2) rfl (.load .value))⟩

theorem threads_reads_monotone_of_three : (Double.ofRat 0).le (.ofRat (0 + 1)) = true := by
  obtain ⟨c, hrun⟩ := exists_reading
  exact threads_reads_monotone (t := 0) [.invoke 0 .value]
    [.invoke 1 .increment, .respond 1 .done] [] hrun rfl (by decide) (by decide)

end Threads

end Counter

end PrometheusCpp
