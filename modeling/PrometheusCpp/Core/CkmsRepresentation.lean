/-
# PrometheusCpp.Core.CkmsRepresentation -- what a sketch looks like between two calls

The buffer holds the latest values of the log in their order, the samples speak of the earlier ones
(`Sketches`), and an answer is one of the values there are (`run_represents`).
-/
import PrometheusCpp.Core.CkmsInvariant

namespace PrometheusCpp.CKMSQuantiles

/-! ## The buffer is the end of the log -/

theorem flush_buffer_suffix (c : CKMSQuantiles) (log : List Number) : c.flush.buffer_ <:+ log := by
  rw [flush_buffer]
  exact List.nil_suffix

theorem step_buffer_suffix {c : CKMSQuantiles} {log : List Number} (h : c.buffer_ <:+ log)
    (call : Call) : (step c call).buffer_ <:+ logStep log call := by
  cases call with
  | insert value =>
      simp only [step, CKMSQuantiles.insert]
      split
      · exact flush_buffer_suffix _ _
      · obtain ⟨flushed, rfl⟩ := h
        exact ⟨flushed, (List.append_assoc flushed c.buffer_ [value]).symm⟩
  | get q => exact flush_buffer_suffix c log
  | reset => exact List.nil_suffix

theorem run_buffer_suffix (quantiles : List Quantile) (calls : List Call) :
    (run quantiles calls).buffer_ <:+ inserted calls :=
  List.foldl_rel (r := fun (c : CKMSQuantiles) log => c.buffer_ <:+ log) List.nil_suffix
    fun call _ _ _ h => step_buffer_suffix h call

/-- The samples speak of the values in front of the buffer. -/
theorem Inv.sketches_take {targets : List Target} {c : CKMSQuantiles} {log : List Number}
    (h : Inv targets c log) (hsuffix : c.buffer_ <:+ log) :
    Sketches c (log.take c.count_) ∧ c.count_ + c.buffer_.length = log.length := by
  obtain ⟨flushed, hs, hperm⟩ := h.flushed
  obtain ⟨front, rfl⟩ := hsuffix
  have hfront : flushed.Perm front := (List.perm_append_right_iff c.buffer_).mp hperm
  have hcount : c.count_ = front.length := by rw [hs.count, hfront.length_eq]
  rw [hcount, List.take_left, List.length_append]
  exact ⟨hs.perm hfront, rfl⟩

/-! ## Answers -/

theorem scan_mem (bound : Double) (rest : List Item) : ∀ (rankMin : Int) (prev : Item),
    scan bound rankMin prev rest ∈ prev :: rest := by
  induction rest with
  | nil => intro rankMin prev; exact List.mem_singleton_self prev
  | cons cur rest ih =>
      intro rankMin prev
      rw [scan]
      split
      · exact List.mem_cons_self
      · exact List.mem_cons_of_mem prev (ih _ cur)

/-- Whatever is asked for, the answer is the value of a sample if there is one. -/
theorem select_cases (c : CKMSQuantiles) (q : Double) :
    (c.sample_ = [] ∧ c.select q = .nan) ∨ ∃ item ∈ c.sample_, c.select q = .num item.value := by
  unfold select
  split
  · rename_i hnil
    exact .inl ⟨hnil, rfl⟩
  · rename_i first rest hsample
    rw [hsample]
    exact .inr ⟨_, scan_mem _ rest 0 first, rfl⟩

theorem Inv.get_cases {targets : List Target} {c : CKMSQuantiles} {log : List Number}
    (h : Inv targets c log) (q : Double) :
    (log = [] ∧ (c.get q).1 = .nan) ∨ ∃ v ∈ log, (c.get q).1 = .num v := by
  have hs := h.flush_sketches
  rcases select_cases c.flush q with ⟨hnil, hnan⟩ | ⟨item, hitem, hvalue⟩
  · exact .inl ⟨hs.sample_eq_nil_iff.mp hnil, hnan⟩
  · exact .inr ⟨item.value, hs.mem item hitem, hvalue⟩

/-! ## Every run -/

/-- A sketch and the values inserted into it since the last reset, of which the first `count_` are
flushed. -/
structure Represents (c : CKMSQuantiles) (log : List Number) : Prop where
  room : c.buffer_.length < bufferCapacity
  sorted : c.sample_.Pairwise fun a b => a.value ≤ b.value
  g_pos : ∀ item ∈ c.sample_, 1 ≤ item.g
  delta_nonneg : ∀ item ∈ c.sample_, 0 ≤ item.delta
  weight : (c.sample_.map Item.g).sum = c.count_
  counted : c.count_ + c.buffer_.length = log.length
  mem : ∀ item ∈ c.sample_, item.value ∈ log
  last : ∀ last ∈ c.sample_.getLast?, last.delta = 0 ∧
    last.value ∈ log.take c.count_ ∧ ∀ x ∈ log.take c.count_, x ≤ last.value
  get_nan : ∀ q, (c.get q).1 = .nan ↔ log = []
  get_mem : ∀ q, log ≠ [] → ∃ v ∈ log, (c.get q).1 = .num v

theorem Inv.represents {targets : List Target} {c : CKMSQuantiles} {log : List Number}
    (h : Inv targets c log) (hsuffix : c.buffer_ <:+ log) : Represents c log := by
  obtain ⟨hs, hcounted⟩ := h.sketches_take hsuffix
  refine
    { room := h.buffer
      sorted := hs.sorted
      g_pos := hs.g_pos
      delta_nonneg := hs.delta_nonneg
      weight := by rw [hs.weight, ← hs.count]
      counted := hcounted
      mem := fun item hitem => List.mem_of_mem_take (hs.mem item hitem)
      last := ?_, get_nan := ?_, get_mem := ?_ }
  · intro last hlast
    obtain ⟨hdelta, hmax⟩ := hs.last last hlast
    exact ⟨hdelta, hs.mem last (List.mem_of_getLast? hlast), hmax⟩
  · intro q
    rcases h.get_cases q with ⟨hlog, hnan⟩ | ⟨v, hv, hvalue⟩
    · exact iff_of_true hnan hlog
    · rw [hvalue]
      exact iff_of_false nofun (List.ne_nil_of_mem hv)
  · intro q hne
    rcases h.get_cases q with ⟨hlog, -⟩ | hanswer
    · exact absurd hlog hne
    · exact hanswer

/-- After any calls a sketch represents the values inserted since the last reset. -/
theorem run_represents (targets : List Target) (calls : List Call) :
    Represents (run (targets.map Target.toQuantile) calls) (inserted calls) :=
  (run_inv targets calls).represents (run_buffer_suffix _ calls)

end PrometheusCpp.CKMSQuantiles
