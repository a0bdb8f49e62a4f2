/-
# PrometheusCpp.Lib.Linearization -- objects with many callers at once

Threads call an object and get responses. An atomic object (`Atomic`) carries out each call in one
step between the two events, and logs it; its log is a run of the object by one caller. An
implementation takes many steps for a call, and the steps of other threads fall between them. Its
events are linearizable when an atomic object can show the same ones, and then the log tells what
happened: every call is in it once, between its two events.

`linearizable_of_commits` is the rule for objects without a lock, where one step of a call changes
the shared state and the others only look at it.
-/
import Mathlib.Data.List.Perm.Basic
import Mathlib.Data.List.Basic
import Mathlib.Logic.Function.Basic
import Mathlib.Logic.Relation

namespace Linearization

/-! ## Runs -/

section Runs

variable {σ τ ε : Type*}

/-- The states a system reaches, with the events seen on the way; a step shows one or none. -/
inductive Run (step : σ → Option ε → σ → Prop) (s₀ : σ) : List ε → σ → Prop
  | init : Run step s₀ [] s₀
  | silent {es : List ε} {s s' : σ} (reached : Run step s₀ es s) (taken : step s none s') :
      Run step s₀ es s'
  | visible {es : List ε} {e : ε} {s s' : σ} (reached : Run step s₀ es s)
      (taken : step s (some e) s') : Run step s₀ (es ++ [e]) s'

variable {step : σ → Option ε → σ → Prop} {s₀ s s' : σ} {es es' : List ε}

theorem Run.trans (h : Run step s₀ es s) (h' : Run step s es' s') :
    Run step s₀ (es ++ es') s' := by
  induction h' with
  | init => rwa [List.append_nil]
  | silent _ taken ih => exact .silent ih taken
  | visible _ taken ih =>
      rw [← List.append_assoc]
      exact .visible ih taken

/-- A run with an event is one up to it, the step that shows it and one from there on. -/
theorem Run.split {e : ε} (h : Run step s₀ (es ++ e :: es') s) :
    ∃ m m', Run step s₀ es m ∧ step m (some e) m' ∧ Run step m' es' s := by
  generalize hall : es ++ e :: es' = all at h
  induction h generalizing es' with
  | init => exact absurd hall (by simp)
  | silent _ taken ih =>
      obtain ⟨m, m', hbefore, hstep, hafter⟩ := ih hall
      exact ⟨m, m', hbefore, hstep, .silent hafter taken⟩
  | @visible shown e' s s' reached taken ih =>
      rcases List.eq_nil_or_concat es' with rfl | ⟨rest, last, rfl⟩
      · obtain ⟨rfl, heq⟩ := List.append_inj' hall rfl
        obtain rfl := (List.cons.inj heq).1
        exact ⟨s, s', reached, taken, .init⟩
      · rw [List.concat_eq_append, ← List.cons_append, ← List.append_assoc] at hall
        obtain ⟨hshown, heq⟩ := List.append_inj' hall rfl
        obtain rfl := (List.cons.inj heq).1
        obtain ⟨m, m', hbefore, hstep, hafter⟩ := ih hshown
        rw [List.concat_eq_append]
        exact ⟨m, m', hbefore, hstep, .visible hafter taken⟩

theorem Run.front (h : Run step s₀ (es ++ es') s) : ∃ m, Run step s₀ es m := by
  cases es' with
  | nil => exact ⟨s, by rwa [List.append_nil] at h⟩
  | cons e es' =>
      obtain ⟨m, -, hbefore, -⟩ := h.split
      exact ⟨m, hbefore⟩

theorem Run.invariant {P : σ → Prop} (h : Run step s₀ es s) (h₀ : P s₀)
    (hstep : ∀ s o s', P s → step s o s' → P s') : P s := by
  induction h with
  | init => exact h₀
  | silent _ taken ih => exact hstep _ _ _ ih taken
  | visible _ taken ih => exact hstep _ _ _ ih taken

theorem Run.invariant_silent {P : σ → Prop} (h : Run step s₀ [] s) (h₀ : P s₀)
    (hstep : ∀ s s', P s → step s none s' → P s') : P s := by
  generalize hnone : ([] : List ε) = shown at h
  induction h with
  | init => exact h₀
  | silent _ taken ih => exact hstep _ _ (ih hnone) taken
  | visible => exact absurd hnone (by simp)

/-- What one step can be followed by, a run can. -/
theorem Run.simulate {stepA : τ → Option ε → τ → Prop} {a₀ : τ} {Q : σ → τ → Prop}
    (hstep : ∀ s o s' a, Q s a → step s o s' → ∃ a', Run stepA a o.toList a' ∧ Q s' a')
    (h₀ : Q s₀ a₀) (h : Run step s₀ es s) : ∃ a, Run stepA a₀ es a ∧ Q s a := by
  induction h with
  | init => exact ⟨a₀, .init, h₀⟩
  | silent _ taken ih =>
      obtain ⟨a, hrun, hrel⟩ := ih
      obtain ⟨a', hrun', hrel'⟩ := hstep _ _ _ a hrel taken
      exact ⟨a', by simpa using hrun.trans hrun', hrel'⟩
  | visible _ taken ih =>
      obtain ⟨a, hrun, hrel⟩ := ih
      obtain ⟨a', hrun', hrel'⟩ := hstep _ _ _ a hrel taken
      exact ⟨a', hrun.trans hrun', hrel'⟩

end Runs

/-! ## Atomic objects -/

/-- What is seen of the calls of the threads. -/
inductive Event (ι Op R : Type*) where
  | invoke (t : ι) (op : Op)
  | respond (t : ι) (r : R)

/-- Where the call of a thread is: there is none, or it has yet to take effect, or has. -/
inductive Status (Op R : Type*) where
  | idle
  | pending (op : Op)
  | committed (op : Op) (r : R)

/-- An object, the calls in progress, and the calls carried out so far with their results. -/
structure Atomic (ι Op R A : Type*) where
  state : A
  status : ι → Status Op R
  log : List (ι × Op × R)

variable {ι Op R A S L : Type*}

namespace Atomic

def new (a : A) : Atomic ι Op R A where
  state := a
  status _ := .idle
  log := []

/-- `spec a op r a'`: the call `op` on `a` may return `r` and leave `a'`. -/
inductive Step [DecidableEq ι] (spec : A → Op → R → A → Prop) :
    Atomic ι Op R A → Option (Event ι Op R) → Atomic ι Op R A → Prop
  | invoke {a : Atomic ι Op R A} {t : ι} (op : Op) (idle : a.status t = .idle) :
      Step spec a (some (.invoke t op))
        { a with status := Function.update a.status t (.pending op) }
  | commit {a : Atomic ι Op R A} {t : ι} {op : Op} {r : R} {state : A}
      (pending : a.status t = .pending op) (done : spec a.state op r state) :
      Step spec a none
        { state
          status := Function.update a.status t (.committed op r)
          log := a.log ++ [(t, op, r)] }
  | respond {a : Atomic ι Op R A} {t : ι} {op : Op} {r : R}
      (committed : a.status t = .committed op r) :
      Step spec a (some (.respond t r))
        { a with status := Function.update a.status t .idle }

end Atomic

/-- A run by one caller, with its calls and their results. -/
inductive Sequential (spec : A → Op → R → A → Prop) (a₀ : A) : List (ι × Op × R) → A → Prop
  | nil : Sequential spec a₀ [] a₀
  | concat {log : List (ι × Op × R)} {a a' : A} {op : Op} {r : R}
      (before : Sequential spec a₀ log a) (t : ι) (done : spec a op r a') :
      Sequential spec a₀ (log ++ [(t, op, r)]) a'

/-- Calls lead from one state to the other. -/
def Leads (spec : A → Op → R → A → Prop) : A → A → Prop :=
  Relation.ReflTransGen fun a a' => ∃ op r, spec a op r a'

/-- What holds of a state and is kept by every call holds wherever calls lead. -/
theorem Leads.invariant {spec : A → Op → R → A → Prop} {a a' : A} (h : Leads spec a a')
    {P : A → Prop} (h₀ : P a) (hspec : ∀ a op r a', P a → spec a op r a' → P a') : P a' := by
  induction h with
  | refl => exact h₀
  | tail _ hstep ih =>
      obtain ⟨op, r, hstep⟩ := hstep
      exact hspec _ _ _ _ ih hstep

/-- A logged call was carried out on the way. -/
theorem Sequential.leads {spec : A → Op → R → A → Prop} {a₀ b : A} {log : List (ι × Op × R)}
    (h : Sequential spec a₀ log b) {entry : ι × Op × R} (hentry : entry ∈ log) : ∃ s s',
      Leads spec a₀ s ∧ spec s entry.2.1 entry.2.2 s' ∧ Leads spec s' b := by
  have hreach : ∀ {log : List (ι × Op × R)} {b : A}, Sequential spec a₀ log b →
      Leads spec a₀ b := by
    intro log b h
    induction h with
    | nil => exact .refl
    | concat before t done ih => exact ih.tail ⟨_, _, done⟩
  induction h with
  | nil => exact absurd hentry List.not_mem_nil
  | @concat log a a' op r before t done ih =>
      rcases List.mem_append.mp hentry with hold | hnew
      · obtain ⟨s, s', hbefore, hspec, hafter⟩ := ih hold
        exact ⟨s, s', hbefore, hspec, hafter.tail ⟨op, r, done⟩⟩
      · obtain rfl := List.mem_singleton.mp hnew
        exact ⟨a, a', hreach before, done, .refl⟩

variable [DecidableEq ι]

/-! ### The log -/

section Log

variable {spec : A → Op → R → A → Prop} {a₀ : A} {a a' : Atomic ι Op R A}
  {es : List (Event ι Op R)}

theorem Atomic.Step.sequential {o : Option (Event ι Op R)} (h : Atomic.Step spec a o a')
    (hlog : Sequential spec a₀ a.log a.state) : Sequential spec a₀ a'.log a'.state := by
  cases h with
  | invoke op idle => exact hlog
  | commit pending done => exact hlog.concat _ done
  | respond committed => exact hlog

/-- The log is a run that ends in the object's state. -/
theorem Run.sequential (h : Run (Atomic.Step spec) (Atomic.new a₀) es a) :
    Sequential spec a₀ a.log a.state :=
  h.invariant .nil fun _ _ _ hlog taken => taken.sequential hlog

/-- The calls that a thread began. -/
def invocations (t : ι) (es : List (Event ι Op R)) : List Op :=
  es.filterMap fun
    | .invoke t' op => if t' = t then some op else none
    | .respond _ _ => none

/-- The results that a thread got. -/
def responses (t : ι) (es : List (Event ι Op R)) : List R :=
  es.filterMap fun
    | .invoke _ _ => none
    | .respond t' r => if t' = t then some r else none

/-- What a log or a list of calls has for a thread. -/
def ofThread {α : Type*} (t : ι) (entries : List (ι × α)) : List α :=
  entries.filterMap fun entry => if entry.1 = t then some entry.2 else none

/-- The call that has not taken effect, if there is one. -/
def Status.awaited : Status Op R → List Op
  | .pending op => [op]
  | _ => []

/-- The result that has not been returned, if there is one. -/
def Status.held : Status Op R → List R
  | .committed _ r => [r]
  | _ => []

/-- The call that has taken effect without having returned, if there is one. -/
def Status.finished : Status Op R → List (Op × R)
  | .committed op r => [(op, r)]
  | _ => []

/-- Each thread's calls are in the log in the order in which the thread made them, except for one
that has yet to take effect, and with the results that the thread got. -/
structure Accounted (es : List (Event ι Op R)) (a : Atomic ι Op R A) : Prop where
  calls : ∀ t, invocations t es =
    (ofThread t a.log).map Prod.fst ++ (a.status t).awaited
  results : ∀ t, (ofThread t a.log).map Prod.snd = responses t es ++ (a.status t).held
  last : ∀ t, (a.status t).finished <:+ ofThread t a.log

theorem Accounted.invoke {t : ι} (op : Op) (h : Accounted es a) (idle : a.status t = .idle) :
    Accounted (es ++ [.invoke t op])
      { a with status := Function.update a.status t (.pending op) } := by
  constructor
  · intro u
    have hcalls := h.calls u
    by_cases hu : u = t
    · subst hu
      simp_all [invocations, Status.awaited]
    · simp_all [invocations, Ne.symm hu]
  · intro u
    have hresults := h.results u
    by_cases hu : u = t
    · subst hu
      simp_all [responses, Status.held]
    · simp_all [responses]
  · intro u
    have hlast := h.last u
    by_cases hu : u = t
    · subst hu
      simp_all [Status.finished]
    · simp_all

theorem Accounted.commit {t : ι} {op : Op} {r : R} {state : A} (h : Accounted es a)
    (pending : a.status t = .pending op) :
    Accounted es
      { state
        status := Function.update a.status t (.committed op r)
        log := a.log ++ [(t, op, r)] } := by
  constructor
  · intro u
    have hcalls := h.calls u
    by_cases hu : u = t
    · subst hu
      simp_all [ofThread, Status.awaited]
    · simp_all [ofThread, Ne.symm hu]
  · intro u
    have hresults := h.results u
    by_cases hu : u = t
    · subst hu
      simp_all [ofThread, Status.held]
    · simp_all [ofThread, Ne.symm hu]
  · intro u
    have hlast := h.last u
    by_cases hu : u = t
    · subst hu
      simp_all [ofThread, Status.finished]
    · simp_all [ofThread, Ne.symm hu]

theorem Accounted.respond {t : ι} {op : Op} {r : R} (h : Accounted es a)
    (committed : a.status t = .committed op r) :
    Accounted (es ++ [.respond t r])
      { a with status := Function.update a.status t .idle } := by
  constructor
  · intro u
    have hcalls := h.calls u
    by_cases hu : u = t
    · subst hu
      simp_all [invocations, Status.awaited]
    · simp_all [invocations]
  · intro u
    have hresults := h.results u
    by_cases hu : u = t
    · subst hu
      simp_all [responses, Status.held]
    · simp_all [responses, Ne.symm hu]
  · intro u
    have hlast := h.last u
    by_cases hu : u = t
    · subst hu
      simp_all [Status.finished]
    · simp_all

theorem Run.accounted (h : Run (Atomic.Step spec) (Atomic.new a₀) es a) : Accounted es a := by
  induction h with
  | init => exact ⟨fun _ => rfl, fun _ => rfl, fun _ => List.nil_suffix⟩
  | silent _ taken ih =>
      cases taken with
      | commit pending done => exact ih.commit pending
  | visible _ taken ih =>
      cases taken with
      | invoke op idle => exact ih.invoke op idle
      | respond committed => exact ih.respond committed

/-- What the log has for a thread: its calls that have returned, with their results, and the one that
has taken effect but not returned. -/
theorem Accounted.ofThread_log (h : Accounted es a) (t : ι) :
    ofThread t a.log = (invocations t es).zip (responses t es) ++ (a.status t).finished := by
  have hcalls := h.calls t
  have hresults := h.results t
  have hlast := h.last t
  generalize a.status t = status at hcalls hresults hlast ⊢
  cases status with
  | idle =>
      simp only [Status.awaited, Status.held, Status.finished, List.append_nil] at hcalls hresults ⊢
      rw [hcalls, ← hresults]
      exact List.zip_of_prod rfl rfl
  | pending op =>
      -- The call in progress has no result to go with it.
      simp only [Status.awaited, Status.held, Status.finished, List.append_nil] at hcalls hresults ⊢
      rw [hcalls, ← hresults, ← List.append_nil ((ofThread t a.log).map Prod.snd),
        List.zip_append (by simp), List.zip_nil_right, List.append_nil]
      exact List.zip_of_prod rfl rfl
  | committed op r =>
      obtain ⟨before, hbefore⟩ := hlast
      simp only [Status.finished] at hbefore ⊢
      simp only [Status.awaited, List.append_nil] at hcalls
      simp only [Status.held] at hresults
      rw [← hbefore, List.map_append] at hcalls hresults
      have hsnd : before.map Prod.snd = responses t es := List.append_inj_left' hresults rfl
      rw [← hbefore, hcalls, ← hsnd, ← List.append_nil (before.map Prod.snd),
        List.zip_append (by simp), List.zip_nil_right, List.append_nil]
      exact congrArg (· ++ [(op, r)]) (List.zip_of_prod rfl rfl)

theorem invoke_mem_of_invocations {t : ι} {op : Op} (hmem : op ∈ invocations t es) :
    .invoke t op ∈ es := by
  obtain ⟨e, he, heq⟩ := List.mem_filterMap.mp hmem
  cases e with
  | invoke u op' =>
      dsimp only at heq
      split_ifs at heq with hu
      rwa [← hu, ← Option.some.inj heq]
  | respond u r => cases heq

/-- A call in progress has been begun. -/
theorem Run.invoke_mem {t : ι} {op : Op} (h : Run (Atomic.Step spec) (Atomic.new a₀) es a)
    (hpending : a.status t = .pending op) : .invoke t op ∈ es := by
  apply invoke_mem_of_invocations
  rw [h.accounted.calls t, hpending]
  exact List.mem_append_right _ List.mem_cons_self

/-- A call that has taken effect has been begun. -/
theorem Run.invoke_mem_of_log {t : ι} {op : Op} {r : R}
    (h : Run (Atomic.Step spec) (Atomic.new a₀) es a) (hlog : (t, op, r) ∈ a.log) :
    .invoke t op ∈ es := by
  apply invoke_mem_of_invocations
  rw [h.accounted.calls t]
  refine List.mem_append_left _ (List.mem_map.mpr ⟨(op, r), ?_, rfl⟩)
  exact List.mem_filterMap.mpr ⟨_, hlog, if_pos rfl⟩

/-- Only calls that were begun are carried out. -/
theorem Run.restrict {P : Op → Prop} (h : Run (Atomic.Step spec) (Atomic.new a₀) es a)
    (hallowed : ∀ t op, .invoke t op ∈ es → P op) :
    Run (Atomic.Step fun a op r a' => P op ∧ spec a op r a') (Atomic.new a₀) es a := by
  induction h with
  | init => exact .init
  | silent reached taken ih =>
      cases taken with
      | @commit t op r state pending done =>
          have hop := hallowed t op (reached.invoke_mem pending)
          exact .silent (ih hallowed) (.commit pending ⟨hop, done⟩)
  | visible reached taken ih =>
      have hbefore := ih fun t op hmem => hallowed t op (List.mem_append_left _ hmem)
      cases taken with
      | invoke op idle => exact .visible hbefore (.invoke op idle)
      | respond committed => exact .visible hbefore (.respond committed)

end Log

/-! ### Real time -/

section RealTime

variable {spec : A → Op → R → A → Prop} {a₀ : A} {a a' : Atomic ι Op R A}
  {es es₁ es₂ es₃ : List (Event ι Op R)} {t t' : ι}

theorem Run.leads (h : Run (Atomic.Step spec) a es a') : Leads spec a.state a'.state := by
  have hself : Leads spec a.state a.state := .refl
  refine h.invariant (P := fun b => Leads spec a.state b.state) hself ?_
  intro b o b' hleads taken
  cases taken with
  | invoke op idle => exact hleads
  | commit pending done => exact hleads.tail ⟨_, _, done⟩
  | respond committed => exact hleads

/-- The log only grows. -/
theorem Run.log_prefix (h : Run (Atomic.Step spec) a es a') : a.log <+: a'.log := by
  refine h.invariant (P := fun b => a.log <+: b.log) List.prefix_rfl fun b o b' hlog taken => ?_
  cases taken with
  | invoke op idle => exact hlog
  | commit pending done => exact hlog.trans (List.prefix_append ..)
  | respond committed => exact hlog

/-- A call whose result has been returned is in the log. -/
theorem Run.mem_log {r : R} (h : Run (Atomic.Step spec) (Atomic.new a₀) es a)
    (hrespond : .respond t r ∈ es) : ∃ op, (t, op, r) ∈ a.log := by
  have hmem : r ∈ responses t es := List.mem_filterMap.mpr ⟨_, hrespond, if_pos rfl⟩
  have hlogged : r ∈ (ofThread t a.log).map Prod.snd := by
    rw [h.accounted.results t]
    exact List.mem_append_left _ hmem
  obtain ⟨⟨op, r'⟩, hentry, rfl⟩ := List.mem_map.mp hlogged
  obtain ⟨⟨u, entry⟩, hlog, hu⟩ := List.mem_filterMap.mp hentry
  split_ifs at hu with heq
  obtain rfl : entry = (op, r') := Option.some.inj hu
  exact ⟨op, heq ▸ hlog⟩

def Event.thread : Event ι Op R → ι
  | .invoke t _ => t
  | .respond t _ => t

/-- A call that has not taken effect takes effect before it returns, at some state on the way. -/
theorem Run.commits_between {op op' : Op} {r : R} (h : Run (Atomic.Step spec) a es a')
    (hother : ∀ e ∈ es, e.thread ≠ t) (hpending : a.status t = .pending op)
    (hcommitted : a'.status t = .committed op' r) :
    ∃ es' m s', es' <+: es ∧ Run (Atomic.Step spec) a es' m ∧ m.status t = .pending op ∧
      spec m.state op r s' ∧ m.log ++ [(t, op, r)] <+: a'.log ∧ Leads spec s' a'.state := by
  suffices hinv : a'.status t = .pending op ∨ ∃ r', a'.status t = .committed op r' ∧
      ∃ es' m s', es' <+: es ∧ Run (Atomic.Step spec) a es' m ∧ m.status t = .pending op ∧
        spec m.state op r' s' ∧ m.log ++ [(t, op, r')] <+: a'.log ∧ Leads spec s' a'.state by
    rcases hinv with hstill | ⟨r', hstatus, hdone⟩
    · rw [hstill] at hcommitted
      cases hcommitted
    · rw [hstatus] at hcommitted
      obtain ⟨-, rfl⟩ := Status.committed.inj hcommitted
      exact hdone
  clear hcommitted
  induction h with
  | init => exact .inl hpending
  | @silent shown b b' reached taken ih =>
      cases taken with
      | @commit u opu ru state pending done =>
          by_cases hu : u = t
          · subst hu
            rcases ih hother with hstatus | ⟨r', hstatus, hdone⟩
            · rw [hstatus] at pending
              obtain rfl := Status.pending.inj pending
              exact .inr ⟨ru, Function.update_self .., shown, b, state, List.prefix_rfl, reached,
                hstatus, done, List.prefix_rfl, .refl⟩
            · rw [hstatus] at pending
              cases pending
          · simp only [Function.update_of_ne (Ne.symm hu)]
            refine (ih hother).imp_right ?_
            rintro ⟨r', hstatus, es', m, s', hes, hm, hat, hspec, hlog, hs'⟩
            exact ⟨r', hstatus, es', m, s', hes, hm, hat, hspec, hlog.trans (List.prefix_append ..),
              hs'.tail ⟨opu, ru, done⟩⟩
  | @visible shown e b b' reached taken ih =>
      have hne := hother e (List.mem_append_right _ List.mem_cons_self)
      have hbefore : b.status t = .pending op ∨ ∃ r', b.status t = .committed op r' ∧
          ∃ es' m s', es' <+: shown ++ [e] ∧ Run (Atomic.Step spec) a es' m ∧
            m.status t = .pending op ∧ spec m.state op r' s' ∧ m.log ++ [(t, op, r')] <+: b.log ∧
            Leads spec s' b.state := by
        refine (ih fun e he => hother e (List.mem_append_left _ he)).imp_right ?_
        rintro ⟨r', hstatus, es', m, s', hes, hdone⟩
        exact ⟨r', hstatus, es', m, s', hes.trans (List.prefix_append ..), hdone⟩
      cases taken with
      | @invoke u opu idle =>
          have hu : t ≠ u := Ne.symm hne
          simpa only [Function.update_of_ne hu] using hbefore
      | @respond u opu ru committed =>
          have hu : t ≠ u := Ne.symm hne
          simpa only [Function.update_of_ne hu] using hbefore

/-- A call takes effect between its beginning and its end. -/
theorem Run.takes_effect {b b' d d' : Atomic ι Op R A} {op : Op} {r : R}
    (hinvoke : Atomic.Step spec b (some (.invoke t op)) b') (hbetween : Run (Atomic.Step spec) b' es d)
    (hrespond : Atomic.Step spec d (some (.respond t r)) d') (hother : ∀ e ∈ es, e.thread ≠ t) :
    ∃ s s', Leads spec b.state s ∧ spec s op r s' ∧ Leads spec s' d'.state := by
  cases hinvoke with
  | invoke op idle =>
      cases hrespond with
      | respond committed =>
          obtain ⟨_, m, s', -, hm, -, hspec, -, hs'⟩ :=
            hbetween.commits_between hother (Function.update_self ..) committed
          exact ⟨m.state, s', hm.leads, hspec, hs'⟩

/-- A call that returns before another one begins takes effect before it. -/
theorem Run.real_time {r r' : R} {op' : Op}
    (h : Run (Atomic.Step spec) (Atomic.new a₀)
      (es₁ ++ .respond t r :: (es₂ ++ .invoke t' op' :: (es₃ ++ [.respond t' r']))) a)
    (hother : ∀ e ∈ es₃, e.thread ≠ t') : ∃ op s₁ s₁' s₂ s₂', Leads spec a₀ s₁ ∧
      spec s₁ op r s₁' ∧ Leads spec s₁' s₂ ∧ spec s₂ op' r' s₂' ∧ Leads spec s₂' a.state := by
  rw [← List.cons_append, ← List.append_assoc] at h
  obtain ⟨b, b', hbefore, hinvoke, hafter⟩ := h.split
  obtain ⟨d, d', hbetween, hrespond, hend⟩ := hafter.split
  obtain ⟨op, hlog⟩ := hbefore.mem_log (t := t) (r := r) (by simp)
  obtain ⟨s₁, s₁', hs₁, hspec₁, hs₁'⟩ := hbefore.sequential.leads hlog
  obtain ⟨s₂, s₂', hs₂, hspec₂, hs₂'⟩ := Run.takes_effect hinvoke hbetween hrespond hother
  exact ⟨op, s₁, s₁', s₂, s₂', hs₁, hspec₁, hs₁'.trans hs₂, hspec₂, hs₂'.trans hend.leads⟩

end RealTime

/-! ### The calls of a history -/

section Calls

variable {α : Type*}

theorem ofThread_cons (t u : ι) (x : α) (entries : List (ι × α)) :
    ofThread t ((u, x) :: entries) =
      if u = t then x :: ofThread t entries else ofThread t entries := by
  by_cases hu : u = t <;> simp [ofThread, hu]

theorem invocations_invoke (t u : ι) (op : Op) (es : List (Event ι Op R)) :
    invocations t (.invoke u op :: es) =
      if u = t then op :: invocations t es else invocations t es := by
  by_cases hu : u = t <;> simp [invocations, hu]

theorem count_eq_count_ofThread [DecidableEq α] (t : ι) (x : α) (entries : List (ι × α)) :
    entries.count (t, x) = (ofThread t entries).count x := by
  induction entries with
  | nil => rfl
  | cons entry rest ih =>
      obtain ⟨u, y⟩ := entry
      by_cases hu : u = t
      · subst hu
        simpa [ofThread, List.count_cons] using ih
      · have hne : ¬ (u, y) = (t, x) := fun heq => hu (congrArg Prod.fst heq)
        simpa [ofThread, List.count_cons, hu, hne] using ih

/-- Lists with the same entries for each thread differ in the order only. -/
theorem perm_of_ofThread {entries others : List (ι × α)}
    (h : ∀ t, ofThread t entries = ofThread t others) : entries.Perm others := by
  classical
  rw [List.perm_iff_count]
  rintro ⟨t, x⟩
  rw [count_eq_count_ofThread, count_eq_count_ofThread, h]

/-- What has at most the entries of another list for each thread has at most its entries. -/
theorem subperm_of_ofThread {entries others : List (ι × α)}
    (h : ∀ t, ofThread t entries <+: ofThread t others) : entries.Subperm others := by
  classical
  rw [List.subperm_ext_iff]
  rintro ⟨t, x⟩ -
  rw [count_eq_count_ofThread, count_eq_count_ofThread]
  exact (h t).sublist.count_le x

/-- The calls that were begun, in the order of their beginnings. -/
def invoked (es : List (Event ι Op R)) : List (ι × Op) :=
  es.filterMap fun
    | .invoke t op => some (t, op)
    | .respond _ _ => none

omit [DecidableEq ι] in
theorem mem_invoked {es : List (Event ι Op R)} {t : ι} {op : Op} (h : .invoke t op ∈ es) :
    (t, op) ∈ invoked es := List.mem_filterMap.mpr ⟨_, h, rfl⟩

theorem ofThread_invoked (t : ι) (es : List (Event ι Op R)) :
    ofThread t (invoked es) = invocations t es := by
  rw [ofThread, invoked, invocations, List.filterMap_filterMap]
  congr 1
  funext e
  cases e <;> rfl

/-- The calls that were begun and have returned. -/
def returned : List (Event ι Op R) → List (ι × Op)
  | [] => []
  | .invoke t op :: es => if (responses t es).isEmpty then returned es else (t, op) :: returned es
  | .respond _ _ :: es => returned es

theorem returned_concat_invoke (t : ι) (op : Op) (es : List (Event ι Op R)) :
    returned (es ++ [.invoke t op]) = returned es := by
  induction es with
  | nil => rfl
  | cons e es ih =>
      cases e with
      | respond u r => exact ih
      | invoke u op' =>
          have hsame : responses u (es ++ [.invoke t op]) = responses u es := by simp [responses]
          rw [List.cons_append, returned, returned, ih, hsame]

/-- With a response, all calls of the thread have returned. -/
theorem ofThread_returned_concat_respond (t : ι) (r : R) (es : List (Event ι Op R)) (u : ι) :
    ofThread u (returned (es ++ [.respond t r])) =
      if u = t then invocations t es else ofThread u (returned es) := by
  induction es with
  | nil => simp [returned, ofThread, invocations]
  | cons e es ih =>
      cases e with
      | respond v r' => exact ih
      | invoke v op =>
          by_cases hv : v = t
          · subst hv
            have hsome : (responses v (es ++ [.respond v r])).isEmpty = false := by simp [responses]
            rw [List.cons_append, returned, returned, hsome, if_neg Bool.false_ne_true,
              ofThread_cons, invocations_invoke, ih]
            by_cases hu : u = v
            · rw [if_pos hu.symm, if_pos hu, if_pos rfl, if_pos hu]
            · rw [if_neg (Ne.symm hu), if_neg hu, if_neg hu]
              split_ifs
              · rfl
              · rw [ofThread_cons, if_neg (Ne.symm hu)]
          · have hsame : responses v (es ++ [.respond t r]) = responses v es := by
              simp [responses, Ne.symm hv]
            rw [List.cons_append, returned, returned, hsame, invocations_invoke, if_neg hv]
            by_cases hu : u = t
            · have hvu : ¬ v = u := fun heq => hv (heq.trans hu)
              rw [if_pos hu] at ih ⊢
              split_ifs
              · exact ih
              · rw [ofThread_cons, if_neg hvu, ih]
            · rw [if_neg hu] at ih ⊢
              split_ifs
              · exact ih
              · rw [ofThread_cons, ofThread_cons, ih]

end Calls

/-! ### What a call has seen -/

section Seen

variable {spec : A → Op → R → A → Prop} {a₀ : A} {a : Atomic ι Op R A}
  {es es₁ es₂ es₃ : List (Event ι Op R)}

/-- The calls of a log, without their results. -/
def logged (log : List (ι × Op × R)) : List (ι × Op) := log.map fun entry => (entry.1, entry.2.1)

theorem ofThread_logged (t : ι) (log : List (ι × Op × R)) :
    ofThread t (logged log) = (ofThread t log).map Prod.fst := by
  simp only [logged, ofThread, List.map_filterMap, List.filterMap_map]
  congr 1
  funext entry
  by_cases ht : entry.1 = t <;> simp [ht]

/-- Calls that have returned are in the log. -/
theorem Run.returned_subperm (h : Run (Atomic.Step spec) (Atomic.new a₀) es a) :
    (returned es).Subperm (logged a.log) := by
  apply subperm_of_ofThread
  induction h with
  | init => exact fun _ => List.prefix_rfl
  | silent _ taken ih =>
      intro u
      cases taken with
      | commit pending done =>
          refine (ih u).trans ?_
          rw [logged, logged, List.map_append, ofThread, ofThread, List.filterMap_append]
          exact List.prefix_append ..
  | visible reached taken ih =>
      intro u
      cases taken with
      | invoke op idle => rw [returned_concat_invoke]; exact ih u
      | @respond t op r committed =>
          rw [ofThread_returned_concat_respond]
          split_ifs with hu
          · rw [hu, ofThread_logged, reached.accounted.calls t, committed]
            simp [Status.awaited]
          · exact ih u

/-- Calls in the log have begun. -/
theorem Run.logged_subperm (h : Run (Atomic.Step spec) (Atomic.new a₀) es a) :
    (logged a.log).Subperm (invoked es) := by
  apply subperm_of_ofThread
  intro t
  rw [ofThread_logged, ofThread_invoked, h.accounted.calls t]
  exact List.prefix_append ..

omit [DecidableEq ι] in
theorem filterMap_of_thread_ne {β : Type*} {t : ι} {f : Event ι Op R → Option β}
    (hf : ∀ e : Event ι Op R, e.thread ≠ t → f e = none) (hother : ∀ e ∈ es, e.thread ≠ t) :
    es.filterMap f = [] :=
  List.filterMap_eq_nil_iff.mpr fun e he => hf e (hother e he)

theorem invocations_of_thread_ne {t : ι} (hother : ∀ e ∈ es, e.thread ≠ t) :
    invocations t es = [] := by
  refine filterMap_of_thread_ne (fun e he => ?_) hother
  cases e with
  | invoke u op => exact if_neg he
  | respond u r => rfl

theorem responses_of_thread_ne {t : ι} (hother : ∀ e ∈ es, e.thread ≠ t) : responses t es = [] := by
  refine filterMap_of_thread_ne (fun e he => ?_) hother
  cases e with
  | invoke u op => rfl
  | respond u r => exact if_neg he

/-- A call that returns has taken effect between its beginning and its end, at a state `m` with the
earlier calls in the log, those of its own thread among them; there it is entered behind them. -/
theorem Run.commit_point {t : ι} {op : Op} {r : R}
    (h : Run (Atomic.Step spec) (Atomic.new a₀)
      (es₁ ++ .invoke t op :: (es₂ ++ .respond t r :: es₃)) a)
    (hother : ∀ e ∈ es₂, e.thread ≠ t) : ∃ b es' m s', Run (Atomic.Step spec) (Atomic.new a₀) es₁ b ∧
      b.log <+: m.log ∧ es' <+: es₂ ∧
      Run (Atomic.Step spec) (Atomic.new a₀) (es₁ ++ [.invoke t op] ++ es') m ∧
      m.status t = .pending op ∧ spec m.state op r s' ∧ m.log ++ [(t, op, r)] <+: a.log ∧
      Leads spec s' a.state ∧ ofThread t m.log = (invocations t es₁).zip (responses t es₁) := by
  obtain ⟨b, b', hbefore, hinvoke, hafter⟩ := h.split
  obtain ⟨d, d', hbetween, hrespond, hend⟩ := hafter.split
  have hpending : b'.status t = .pending op := by
    cases hinvoke with
    | invoke op idle => exact Function.update_self ..
  obtain ⟨op', hcommitted⟩ : ∃ op', d.status t = .committed op' r := by
    cases hrespond with
    | respond committed => exact ⟨_, committed⟩
  obtain ⟨es', m, s', hes, hm, hat, hspec, hlog, hleads⟩ :=
    hbetween.commits_between hother hpending hcommitted
  have hreached := (Run.visible hbefore hinvoke).trans hm
  have hlater := Run.trans (.visible .init hrespond) hend
  refine ⟨b, es', m, s', hbefore, Run.log_prefix (.trans (.visible .init hinvoke) hm), hes,
    hreached, hat, hspec, hlog.trans hlater.log_prefix, hleads.trans hlater.leads, ?_⟩
  -- The thread does nothing else before it.
  have hother' : ∀ e ∈ es', e.thread ≠ t := fun e he => hother e (hes.subset he)
  have hcalls := hreached.accounted.calls t
  have hresults := hreached.accounted.results t
  rw [hat] at hcalls hresults
  have hinvocations : invocations t (es₁ ++ [.invoke t op] ++ es') = invocations t es₁ ++ [op] := by
    rw [invocations, List.filterMap_append, List.filterMap_append, ← invocations, ← invocations,
      ← invocations, invocations_of_thread_ne hother', List.append_nil]
    simp [invocations]
  have hresponses : responses t (es₁ ++ [.invoke t op] ++ es') = responses t es₁ := by
    rw [responses, List.filterMap_append, List.filterMap_append, ← responses, ← responses,
      ← responses, responses_of_thread_ne hother', List.append_nil]
    simp [responses]
  simp only [hinvocations, Status.awaited] at hcalls
  simp only [hresponses, Status.held, List.append_nil] at hresults
  exact List.zip_of_prod (List.append_inj_left' hcalls rfl).symm hresults

/-- A call is carried out after calls that are, each once, all those that had returned when it
began, and otherwise only such as had begun when it returned. -/
theorem Run.seen {t : ι} {op : Op} {r : R}
    (h : Run (Atomic.Step spec) (Atomic.new a₀)
      (es₁ ++ .invoke t op :: (es₂ ++ .respond t r :: es₃)) a)
    (hother : ∀ e ∈ es₂, e.thread ≠ t) : ∃ log s s', Sequential spec a₀ log s ∧ spec s op r s' ∧
      (returned es₁).Subperm (logged log) ∧ (logged log).Subperm (invoked (es₁ ++ es₂)) := by
  obtain ⟨b, es', m, s', hbefore, hgrows, hes, hreached, hat, hspec, -⟩ := h.commit_point hother
  refine ⟨m.log, m.state, s', hreached.sequential, hspec, ?_, ?_⟩
  · exact hbefore.returned_subperm.trans (hgrows.map _).sublist.subperm
  · -- The call itself has begun and is not in the log yet.
    have hlog : (logged m.log ++ [(t, op)]).Subperm (invoked (es₁ ++ [.invoke t op] ++ es')) := by
      have := (Run.silent hreached (.commit hat hspec)).logged_subperm
      rwa [logged, List.map_append] at this
    have hbound : (invoked (es₁ ++ [.invoke t op] ++ es')).Perm
        (invoked (es₁ ++ es') ++ [(t, op)]) := by
      simp only [invoked, List.filterMap_append, List.append_assoc]
      exact List.perm_append_comm.append_left _
    have hfewer : (logged m.log).Subperm (invoked (es₁ ++ es')) :=
      (List.subperm_append_right _).mp (hlog.trans hbound.subperm)
    have hprefix : invoked (es₁ ++ es') <+: invoked (es₁ ++ es₂) :=
      ((List.prefix_append_right_inj es₁).mpr hes).filterMap _
    exact hfewer.trans hprefix.sublist.subperm

end Seen

/-! ### When nobody is calling -/

section Quiet

/-- With no call in progress, the log has exactly the calls that were made. -/
theorem Run.invoked_perm {spec : A → Op → R → A → Prop} {a₀ : A} {a : Atomic ι Op R A}
    {es : List (Event ι Op R)} (h : Run (Atomic.Step spec) (Atomic.new a₀) es a)
    (hquiet : ∀ t, a.status t = .idle) :
    (invoked es).Perm (a.log.map fun entry => (entry.1, entry.2.1)) := by
  apply perm_of_ofThread
  intro t
  rw [ofThread_invoked, h.accounted.calls t, hquiet t]
  simp only [Status.awaited, List.append_nil, ofThread, List.map_filterMap, List.filterMap_map]
  congr 1
  funext entry
  by_cases ht : entry.1 = t <;> simp [ht]

end Quiet

/-! ## Implementations -/

/-- How calls are carried out: what a thread does first, each of its steps on the shared state,
which leaves the thread in the middle of the call or with a result, and what else may happen to
the shared state. -/
structure Implementation (ι Op R S L : Type*) where
  start : Op → L
  step : ι → L → S → L ⊕ R → S → Prop
  environment : S → S → Prop

/-- The shared state, and the call and place of each thread that is calling. -/
structure Config (ι Op S L : Type*) where
  shared : S
  threads : ι → Option (Op × L)

namespace Config

def new (shared : S) : Config ι Op S L where
  shared := shared
  threads _ := none

inductive Step (impl : Implementation ι Op R S L) :
    Config ι Op S L → Option (Event ι Op R) → Config ι Op S L → Prop
  | invoke {c : Config ι Op S L} {t : ι} (op : Op) (idle : c.threads t = none) :
      Step impl c (some (.invoke t op))
        { c with threads := Function.update c.threads t (some (op, impl.start op)) }
  | internal {c : Config ι Op S L} {t : ι} {op : Op} {l l' : L} {shared : S}
      (calling : c.threads t = some (op, l)) (taken : impl.step t l c.shared (.inl l') shared) :
      Step impl c none
        { shared, threads := Function.update c.threads t (some (op, l')) }
  | respond {c : Config ι Op S L} {t : ι} {op : Op} {l : L} {r : R} {shared : S}
      (calling : c.threads t = some (op, l)) (taken : impl.step t l c.shared (.inr r) shared) :
      Step impl c (some (.respond t r))
        { shared, threads := Function.update c.threads t none }
  | environment {c : Config ι Op S L} {shared : S} (happens : impl.environment c.shared shared) :
      Step impl c none { c with shared }

end Config

/-- What holds of two families entry by entry, one entry of both replaced. -/
theorem forall_update {β γ : Type*} {P : ι → β → γ → Prop} {f : ι → β} {g : ι → γ} {t : ι} {x : β}
    {y : γ} (h : ∀ u, u ≠ t → P u (f u) (g u)) (hxy : P t x y) (u : ι) :
    P u (Function.update f t x u) (Function.update g t y u) := by
  by_cases hu : u = t
  · subst hu
    rw [Function.update_self, Function.update_self]
    exact hxy
  · rw [Function.update_of_ne hu, Function.update_of_ne hu]
    exact h u hu

/-! ### Objects without a lock -/

section Commits

variable {impl : Implementation ι Op R S L} {spec : S → Op → R → S → Prop} (Serves : Op → L → Prop)

/-- A thread whose call has not taken effect is at a place of this call. -/
inductive Uncommitted : Option (Op × L) → Status Op R → Prop
  | idle : Uncommitted none .idle
  | calling {op : Op} {l : L} (serves : Serves op l) : Uncommitted (some (op, l)) (.pending op)

variable {Serves}

theorem Uncommitted.eq_idle {status : Status Op R} (h : Uncommitted Serves none status) :
    status = .idle := by
  cases h
  rfl

theorem Uncommitted.eq_pending {op : Op} {l : L} {status : Status Op R}
    (h : Uncommitted Serves (some (op, l)) status) : status = .pending op ∧ Serves op l := by
  cases h with
  | calling serves => exact ⟨rfl, serves⟩

variable (Serves)

/-- An object whose calls change the shared state in their last step, and only there, is atomic. -/
theorem linearizable_of_commits
    (hstart : ∀ op, Serves op (impl.start op))
    (hinternal : ∀ t op l s l' s', Serves op l → impl.step t l s (.inl l') s' →
      Serves op l' ∧ s' = s)
    (hrespond : ∀ t op l s r s', Serves op l → impl.step t l s (.inr r) s' → spec s op r s')
    (henvironment : ∀ s s', ¬ impl.environment s s')
    {s₀ : S} {es : List (Event ι Op R)} {c : Config ι Op S L}
    (h : Run (Config.Step impl) (Config.new s₀) es c) :
    ∃ a, Run (Atomic.Step spec) (Atomic.new s₀) es a ∧
      a.state = c.shared ∧ ∀ t, Uncommitted Serves (c.threads t) (a.status t) := by
  refine h.simulate (Q := fun (c : Config ι Op S L) (a : Atomic ι Op R S) =>
    a.state = c.shared ∧ ∀ t, Uncommitted Serves (c.threads t) (a.status t))
    ?_ ⟨rfl, fun _ => .idle⟩
  rintro c o c' a ⟨hstate, hthreads⟩ taken
  cases taken with
  | @invoke t op idle =>
      have hstatus : a.status t = .idle := (idle ▸ hthreads t).eq_idle
      exact ⟨_, .visible .init (.invoke op hstatus), hstate,
        forall_update (fun u _ => hthreads u) (.calling (hstart op))⟩
  | @internal t op l l' s' calling taken =>
      obtain ⟨hstatus, hserves⟩ := (calling ▸ hthreads t).eq_pending
      obtain ⟨hserves', rfl⟩ := hinternal t op l c.shared l' s' hserves taken
      refine ⟨a, .init, hstate, ?_⟩
      rw [← Function.update_eq_self t a.status, hstatus]
      exact forall_update (fun u _ => hthreads u) (.calling hserves')
  | @respond t op l r s' calling taken =>
      obtain ⟨hstatus, hserves⟩ := (calling ▸ hthreads t).eq_pending
      have hdone : spec a.state op r s' := by
        rw [hstate]
        exact hrespond t op l c.shared r s' hserves taken
      have hcommitted : Function.update a.status t (.committed op r) t = .committed op r :=
        Function.update_self ..
      refine ⟨_, .visible (.silent .init (.commit hstatus hdone)) (.respond hcommitted), rfl, ?_⟩
      rw [Function.update_idem]
      exact forall_update (fun u _ => hthreads u) .idle
  | environment happens => exact absurd happens (henvironment _ _)

end Commits

end Linearization
