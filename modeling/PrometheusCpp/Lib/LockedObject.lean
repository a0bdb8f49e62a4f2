/-
# PrometheusCpp.Lib.LockedObject -- objects whose calls run under one lock

A call of such an object may look, before it takes the lock, at what never changes, and return
already then; it does the rest in a critical section of any number of steps. The rule
(`Realizes.linearizable`) asks for nothing about interleavings: a section, started in a state
that stands for an abstract one and left to itself, ends with a result and in a state that the
abstract object allows. Then the object is atomic, however the steps of the threads are interleaved.
-/
import PrometheusCpp.Lib.Linearization

namespace LockedObject

open Linearization

variable {ι Op R S C A : Type*}

/-- What a call does before it takes the lock, the steps of its critical section, and what happens
to the state from outside. -/
structure Methods (Op R S C : Type*) where
  enter : Op → S → C ⊕ R
  step : C → S → C ⊕ R → S → Prop
  environment : S → S → Prop

/-- A state and the thread that has its lock. -/
structure Guarded (ι S : Type*) where
  holder : Option ι
  value : S

/-- Where a thread is in its call. -/
inductive Place (Op R C : Type*) where
  | called (op : Op)
  | waiting (at_ : C)
  | inside (at_ : C)
  | leaving (r : R)

inductive ThreadStep (m : Methods Op R S C) (t : ι) :
    Place Op R C → Guarded ι S → Place Op R C ⊕ R → Guarded ι S → Prop
  | enter {g : Guarded ι S} {op : Op} {at_ : C} (enters : m.enter op g.value = .inl at_) :
      ThreadStep m t (.called op) g (.inl (.waiting at_)) g
  | return {g : Guarded ι S} {op : Op} {r : R} (returns : m.enter op g.value = .inr r) :
      ThreadStep m t (.called op) g (.inr r) g
  | lock {g : Guarded ι S} {at_ : C} (free : g.holder = none) :
      ThreadStep m t (.waiting at_) g (.inl (.inside at_)) { g with holder := some t }
  | work {g : Guarded ι S} {at_ at' : C} {value : S}
      (taken : m.step at_ g.value (.inl at') value) :
      ThreadStep m t (.inside at_) g (.inl (.inside at')) { g with value }
  | finish {g : Guarded ι S} {at_ : C} {r : R} {value : S}
      (taken : m.step at_ g.value (.inr r) value) :
      ThreadStep m t (.inside at_) g (.inl (.leaving r)) { g with value }
  | unlock {g : Guarded ι S} {r : R} :
      ThreadStep m t (.leaving r) g (.inr r) { g with holder := none }

def locked (m : Methods Op R S C) :
    Implementation ι Op R (Guarded ι S) (Place Op R C) where
  start := .called
  step := ThreadStep m
  environment g g' := m.environment g.value g'.value ∧ g'.holder = g.holder

/-- `Abs v a`: with the lock free, the state `v` stands for `a`. `During a op at_ v`: the call `op`
on `a` is at `at_` in its section, and the state is `v`. -/
structure Realizes (m : Methods Op R S C) (spec : A → Op → R → A → Prop) (Abs : S → A → Prop)
    (During : A → Op → C → S → Prop) : Prop where
  enter_step : ∀ {op at_ v next v'}, m.step at_ v next v' → m.enter op v' = m.enter op v
  enter_environment : ∀ {op v v'}, m.environment v v' → m.enter op v' = m.enter op v
  returns : ∀ {op v r a}, Abs v a → m.enter op v = .inr r → spec a op r a
  enters : ∀ {op v at_ a}, Abs v a → m.enter op v = .inl at_ → During a op at_ v
  works : ∀ {op at_ v at' v' a}, During a op at_ v → m.step at_ v (.inl at') v' →
    During a op at' v'
  finishes : ∀ {op at_ v r v' a}, During a op at_ v → m.step at_ v (.inr r) v' →
    ∃ a', spec a op r a' ∧ Abs v' a'
  abs_environment : ∀ {v v' a}, Abs v a → m.environment v v' → Abs v' a
  during_environment : ∀ {op at_ v v' a}, During a op at_ v → m.environment v v' →
    During a op at_ v'

section Rule

variable {m : Methods Op R S C} {spec : A → Op → R → A → Prop} {Abs : S → A → Prop}
  {During : A → Op → C → S → Prop}

/-- Where a thread is and what has become of its call: nothing before the end of the section, and
only the thread that holds the lock is in one. -/
inductive AtPlace (m : Methods Op R S C) (Abs : S → A → Prop) (During : A → Op → C → S → Prop)
    (g : Guarded ι S) (a : A) (t : ι) : Option (Op × Place Op R C) → Status Op R → Prop
  | idle (out : g.holder ≠ some t) : AtPlace m Abs During g a t none .idle
  | called (out : g.holder ≠ some t) (op : Op) :
      AtPlace m Abs During g a t (some (op, .called op)) (.pending op)
  | waiting {op : Op} {at_ : C} (out : g.holder ≠ some t) (enters : m.enter op g.value = .inl at_) :
      AtPlace m Abs During g a t (some (op, .waiting at_)) (.pending op)
  | inside {op : Op} {at_ : C} (holds : g.holder = some t) (during : During a op at_ g.value) :
      AtPlace m Abs During g a t (some (op, .inside at_)) (.pending op)
  | leaving {op : Op} {r : R} (holds : g.holder = some t) (abs : Abs g.value a) :
      AtPlace m Abs During g a t (some (op, .leaving r)) (.committed op r)

/-- The call of a thread that has taken effect without having returned, if there is one. -/
def finished : Option (Op × Place Op R C) → List (Op × R)
  | some (op, .leaving r) => [(op, r)]
  | _ => []

theorem AtPlace.finished_eq {g : Guarded ι S} {a : A} {t : ι} {place : Option (Op × Place Op R C)}
    {status : Status Op R} (h : AtPlace m Abs During g a t place status) :
    status.finished = finished place := by
  cases h <;> rfl

/-- A thread without the lock does not depend on what the one with the lock does. -/
theorem AtPlace.transfer {g g' : Guarded ι S} {a a' : A} {t : ι} {place : Option (Op × Place Op R C)}
    {status : Status Op R} (h : AtPlace m Abs During g a t place status)
    (henter : ∀ op, m.enter op g'.value = m.enter op g.value) (hholder : g.holder ≠ some t)
    (hout : g'.holder ≠ some t) : AtPlace m Abs During g' a' t place status := by
  cases h with
  | idle => exact .idle hout
  | called _ op => exact .called hout op
  | waiting _ enters => exact .waiting hout ((henter _).trans enters)
  | inside holds during => exact absurd holds hholder
  | leaving holds abs => exact absurd holds hholder

/-- The abstract object has the state that was last left behind, and each of its calls the status
that the thread's place says. -/
structure Corresponds (m : Methods Op R S C) (spec : A → Op → R → A → Prop) (Abs : S → A → Prop)
    (During : A → Op → C → S → Prop) (c : Config ι Op (Guarded ι S) (Place Op R C))
    (a : Atomic ι Op R A) : Prop where
  free : c.shared.holder = none → Abs c.shared.value a.state
  returns : ∀ op r, m.enter op c.shared.value = .inr r → spec a.state op r a.state
  threads : ∀ t, AtPlace m Abs During c.shared a.state t (c.threads t) (a.status t)

theorem AtPlace.of_none {g : Guarded ι S} {a : A} {t : ι} {status : Status Op R}
    (h : AtPlace m Abs During g a t none status) : status = .idle ∧ g.holder ≠ some t := by
  cases h with
  | idle out => exact ⟨rfl, out⟩

theorem AtPlace.of_some {g : Guarded ι S} {a : A} {t : ι} {op : Op} {place : Place Op R C}
    {status : Status Op R} (h : AtPlace m Abs During g a t (some (op, place)) status) :
    match place with
    | .called op' => op' = op ∧ g.holder ≠ some t ∧ status = .pending op
    | .waiting at_ => m.enter op g.value = .inl at_ ∧ status = .pending op
    | .inside at_ => g.holder = some t ∧ During a op at_ g.value ∧ status = .pending op
    | .leaving r => g.holder = some t ∧ Abs g.value a ∧ status = .committed op r := by
  cases h with
  | called out op => exact ⟨rfl, out, rfl⟩
  | waiting _ enters => exact ⟨enters, rfl⟩
  | inside holds during => exact ⟨holds, during, rfl⟩
  | leaving holds abs => exact ⟨holds, abs, rfl⟩

variable {c c' : Config ι Op (Guarded ι S) (Place Op R C)} {a : Atomic ι Op R A}

/-- The others, when the lock is free or the thread `t` has it. -/
theorem Corresponds.others {t : ι} (hc : Corresponds m spec Abs During c a)
    (hbefore : c.shared.holder = none ∨ c.shared.holder = some t) {g : Guarded ι S}
    {state : A} (henter : ∀ op, m.enter op g.value = m.enter op c.shared.value)
    (hafter : g.holder = none ∨ g.holder = some t) :
    ∀ u, u ≠ t → AtPlace m Abs During g state u (c.threads u) (a.status u) := by
  intro u hu
  have hout : ∀ holder : Option ι, holder = none ∨ holder = some t → holder ≠ some u := by
    rintro _ (rfl | rfl) heq
    · cases heq
    · exact hu (Option.some.inj heq).symm
  exact (hc.threads u).transfer henter (hout _ hbefore) (hout _ hafter)

variable [DecidableEq ι]

/-- A thread that takes a step the abstract object does not take. -/
theorem Corresponds.silent {t : ι} (hc : Corresponds m spec Abs During c a) {g : Guarded ι S}
    {place : Option (Op × Place Op R C)}
    (henter : ∀ op, m.enter op g.value = m.enter op c.shared.value)
    (hfree : g.holder = none → Abs g.value a.state)
    (hothers : ∀ u, u ≠ t → AtPlace m Abs During g a.state u (c.threads u) (a.status u))
    (hplace : AtPlace m Abs During g a.state t place (a.status t)) :
    Corresponds m spec Abs During
      { shared := g, threads := Function.update c.threads t place } a where
  free := hfree
  returns op r hreturn := hc.returns op r ((henter op).symm.trans hreturn)
  threads u := by
    have hupdate := forall_update hothers hplace u
    rwa [Function.update_eq_self] at hupdate

theorem Realizes.internal (hm : Realizes m spec Abs During)
    (hc : Corresponds m spec Abs During c a) {t : ι} {op : Op} {place place' : Place Op R C}
    {g : Guarded ι S} (calling : c.threads t = some (op, place))
    (taken : ThreadStep m t place c.shared (.inl place') g) :
    ∃ a', Run (Atomic.Step spec) a [] a' ∧ Corresponds m spec Abs During
      { shared := g, threads := Function.update c.threads t (some (op, place')) } a' := by
  have hplace := AtPlace.of_some (calling ▸ hc.threads t)
  cases taken with
  | enter enters =>
      obtain ⟨rfl, hout, hstatus⟩ := hplace
      refine ⟨a, .init, hc.silent (fun _ => rfl) hc.free (fun u _ => hc.threads u) ?_⟩
      rw [hstatus]
      exact .waiting hout enters
  | lock free =>
      obtain ⟨henters, hstatus⟩ := hplace
      refine ⟨a, .init, hc.silent (fun _ => rfl) nofun (hc.others (.inl free) (fun _ => rfl) (.inr rfl)) ?_⟩
      rw [hstatus]
      exact .inside rfl (hm.enters (hc.free free) henters)
  | work taken =>
      obtain ⟨hholds, hduring, hstatus⟩ := hplace
      have henter : ∀ op, m.enter op _ = m.enter op c.shared.value := fun _ => hm.enter_step taken
      refine ⟨a, .init, hc.silent henter ?_ (hc.others (.inr hholds) henter (.inr hholds)) ?_⟩
      · exact fun hfree => nomatch hholds.symm.trans hfree
      · rw [hstatus]
        exact .inside hholds (hm.works hduring taken)
  | finish taken =>
      -- The call takes effect here, for the lock is not given back before.
      obtain ⟨hholds, hduring, hstatus⟩ := hplace
      obtain ⟨state, hspec, habs⟩ := hm.finishes hduring taken
      have henter : ∀ op, m.enter op _ = m.enter op c.shared.value := fun _ => hm.enter_step taken
      refine ⟨_, .silent .init (.commit hstatus hspec), ?_, fun op r => hm.returns habs, ?_⟩
      · exact fun hfree => nomatch hholds.symm.trans hfree
      · exact forall_update (hc.others (.inr hholds) henter (.inr hholds)) (.leaving hholds habs)

theorem Corresponds.respond (hc : Corresponds m spec Abs During c a) {t : ι} {op : Op}
    {place : Place Op R C} {r : R} {g : Guarded ι S} (calling : c.threads t = some (op, place))
    (taken : ThreadStep m t place c.shared (.inr r) g) :
    ∃ a', Run (Atomic.Step spec) a [.respond t r] a' ∧ Corresponds m spec Abs During
      { shared := g, threads := Function.update c.threads t none } a' := by
  have hplace := AtPlace.of_some (calling ▸ hc.threads t)
  cases taken with
  | «return» returns =>
      obtain ⟨rfl, hout, hstatus⟩ := hplace
      have hspec := hc.returns _ _ returns
      have hthreads := forall_update (fun u _ => hc.threads u) (AtPlace.idle hout)
      refine ⟨_, .visible (.silent .init (.commit hstatus hspec))
        (.respond (Function.update_self ..)), ?_⟩
      rw [Function.update_idem]
      exact ⟨hc.free, hc.returns, hthreads⟩
  | unlock =>
      obtain ⟨hholds, habs, hstatus⟩ := hplace
      refine ⟨_, .visible .init (.respond hstatus), fun _ => habs, hc.returns, ?_⟩
      exact forall_update (hc.others (.inr hholds) (fun _ => rfl) (.inl rfl)) (.idle nofun)

theorem Realizes.step (hm : Realizes m spec Abs During) (hc : Corresponds m spec Abs During c a)
    {o : Option (Event ι Op R)} (taken : Config.Step (locked m) c o c') :
    ∃ a', Run (Atomic.Step spec) a o.toList a' ∧ Corresponds m spec Abs During c' a' := by
  cases taken with
  | invoke op idle =>
      obtain ⟨hstatus, hout⟩ := (idle ▸ hc.threads _ : AtPlace m Abs During _ _ _ none _).of_none
      exact ⟨_, .visible .init (.invoke op hstatus), hc.free, hc.returns,
        forall_update (fun u _ => hc.threads u) (.called hout op)⟩
  | internal calling taken => exact hm.internal hc calling taken
  | respond calling taken => exact hc.respond calling taken
  | environment happens =>
      obtain ⟨hhappens, hholder⟩ := happens
      have henter : ∀ op, m.enter op _ = m.enter op c.shared.value :=
        fun _ => hm.enter_environment hhappens
      refine ⟨a, .init, fun hfree => ?_, fun op r => henter op ▸ hc.returns op r, fun t => ?_⟩
      · exact hm.abs_environment (hc.free (hholder.symm.trans hfree)) hhappens
      · have hthread := hc.threads t
        generalize c.threads t = place at hthread ⊢
        generalize a.status t = status at hthread ⊢
        cases hthread with
        | idle out => exact .idle (hholder ▸ out)
        | called out op => exact .called (hholder ▸ out) op
        | waiting out enters => exact .waiting (hholder ▸ out) ((henter _).trans enters)
        | inside holds during =>
            exact .inside (hholder.trans holds) (hm.during_environment during hhappens)
        | leaving holds abs =>
            exact .leaving (hholder.trans holds) (hm.abs_environment abs hhappens)

/-- The calls are those of the abstract object, which has the state that the lock gives back. -/
theorem Realizes.linearizable (hm : Realizes m spec Abs During) {v₀ : S} {a₀ : A} (h₀ : Abs v₀ a₀)
    {es : List (Event ι Op R)} (h : Run (Config.Step (locked m)) (Config.new ⟨none, v₀⟩) es c) :
    ∃ a, Run (Atomic.Step spec) (Atomic.new a₀) es a ∧ Corresponds m spec Abs During c a := by
  refine h.simulate (Q := Corresponds m spec Abs During) (fun _ _ _ _ hc taken => hm.step hc taken) ?_
  exact ⟨fun _ => h₀, fun op r => hm.returns h₀, fun _ => .idle nofun⟩

omit [DecidableEq ι] in
/-- At any time the state is one that was left behind or one on the way of a section. -/
theorem Corresponds.abs_or_during (hc : Corresponds m spec Abs During c a) :
    Abs c.shared.value a.state ∨ ∃ op at_, During a.state op at_ c.shared.value := by
  cases hholder : c.shared.holder with
  | none => exact .inl (hc.free hholder)
  | some t =>
      have hthread := hc.threads t
      generalize c.threads t = place at hthread
      generalize a.status t = status at hthread
      cases hthread with
      | idle out => exact absurd hholder out
      | called out op => exact absurd hholder out
      | waiting out enters => exact absurd hholder out
      | inside holds during => exact .inr ⟨_, _, during⟩
      | leaving holds abs => exact .inl abs

end Rule

end LockedObject
