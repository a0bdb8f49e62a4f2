/-
# PrometheusCpp.Lib.BucketRing -- a sliding window kept in a ring of buckets

A ring of `k` buckets approximates a sliding window over entries that arrive in epochs: an entry
goes into all buckets, or into the current one only, and at the end of an epoch the current bucket
is emptied and the next one becomes current. A bucket is emptied once in `k` epochs, so at the moment
it becomes current it holds what all buckets were given in the last `k - 1` completed epochs, and
then it takes in the entries of the running epoch as they come (`Holds.head`).

What a bucket is stays open: `content` reads off a bucket the entries it holds, and `shared` says
which of them are for all buckets.
-/
import Mathlib.Data.List.Basic
import Mathlib.Data.Nat.ModEq

namespace BucketRing

structure Ring (σ : Type*) where
  buckets : List σ
  current : Nat

variable {σ : Type*} {α : Type*}

/-- Empties the current bucket and moves on to the next, around the end of the list. -/
def Ring.advance (reset : σ → σ) (r : Ring σ) : Ring σ where
  buckets := r.buckets.modify r.current reset
  current := if r.current + 1 ≥ r.buckets.length then 0 else r.current + 1

def Ring.mapAll (f : σ → σ) (r : Ring σ) : Ring σ := { r with buckets := r.buckets.map f }

def Ring.head (r : Ring σ) : Option σ := r.buckets[r.current]?

/-- Replaces the current bucket. -/
def Ring.setHead (r : Ring σ) (b : σ) : Ring σ := { r with buckets := r.buckets.set r.current b }

/-- The bucket that is current after `d` more epochs. -/
def Ring.ahead (r : Ring σ) (d : Nat) : Option σ :=
  r.buckets[(r.current + d) % r.buckets.length]?

/-- An entry is in the bucket that becomes current `d` epochs after `epoch`: one for all buckets
stays for `k` epochs, one for the current bucket until it is no longer current. -/
def InReach (shared : α → Bool) (k epoch d : Nat) (o : Nat × α) : Bool :=
  if shared o.2 then epoch + d < o.1 + k else o.1 = epoch + d

/-- The entries of that bucket among those made so far, each with its epoch. -/
def reach (shared : α → Bool) (k epoch d : Nat) (entries : List (Nat × α)) : List α :=
  (entries.filter (InReach shared k epoch d)).map Prod.snd

/-- Each bucket holds what will be in the window when it becomes current. -/
structure Holds (shared : α → Bool) (content : σ → List α) (k epoch : Nat)
    (entries : List (Nat × α)) (r : Ring σ) : Prop where
  length : r.buckets.length = k
  current : r.current < k
  past : ∀ o ∈ entries, o.1 ≤ epoch
  ahead : ∀ d < k, ∃ b, r.ahead d = some b ∧ content b = reach shared k epoch d entries

/-! ## Where the buckets are -/

theorem advance_current {r : Ring σ} {reset : σ → σ} (h : r.current < r.buckets.length) :
    (r.advance reset).current = (r.current + 1) % r.buckets.length := by
  unfold Ring.advance
  simp only
  split
  · rename_i hge
    have : r.current + 1 = r.buckets.length := by omega
    rw [this, Nat.mod_self]
  · rename_i hlt
    rw [Nat.mod_eq_of_lt (by omega)]

@[simp] theorem advance_length (r : Ring σ) (reset : σ → σ) :
    (r.advance reset).buckets.length = r.buckets.length := by
  simp [Ring.advance]

/-- Two places of a ring less than one turn apart are different. -/
theorem add_mod_ne {k current d : Nat} (hc : current < k) (hd : 0 < d) (hdk : d < k) :
    (current + d) % k ≠ current := by
  rcases Nat.lt_or_ge (current + d) k with hlt | hge
  · rw [Nat.mod_eq_of_lt hlt]
    omega
  · rw [Nat.mod_eq_sub_mod hge, Nat.mod_eq_of_lt (by omega)]
    omega

/-- An epoch later every other bucket is one place nearer. -/
theorem ahead_advance {r : Ring σ} {reset : σ → σ} (h : r.current < r.buckets.length) {d : Nat}
    (hd : d + 1 < r.buckets.length) : (r.advance reset).ahead d = r.ahead (d + 1) := by
  unfold Ring.ahead
  rw [advance_length, advance_current h]
  have hplace : ((r.current + 1) % r.buckets.length + d) % r.buckets.length
      = (r.current + (d + 1)) % r.buckets.length := by
    rw [Nat.mod_add_mod]
    congr 1
    omega
  have hother : r.current ≠ (r.current + (d + 1)) % r.buckets.length :=
    (add_mod_ne h (Nat.succ_pos d) hd).symm
  rw [hplace, Ring.advance, List.getElem?_modify]
  simp only [hother, if_false]
  exact id_map _

/-- The bucket emptied is the one farthest from being current again. -/
theorem ahead_advance_last {r : Ring σ} {reset : σ → σ} (h : r.current < r.buckets.length) :
    (r.advance reset).ahead (r.buckets.length - 1) = r.head.map reset := by
  unfold Ring.ahead Ring.head
  rw [advance_length, advance_current h]
  have hplace : ((r.current + 1) % r.buckets.length + (r.buckets.length - 1)) % r.buckets.length
      = r.current := by
    rw [Nat.mod_add_mod, show r.current + 1 + (r.buckets.length - 1)
      = r.current + r.buckets.length by omega, Nat.add_mod_right, Nat.mod_eq_of_lt h]
  rw [hplace, Ring.advance, List.getElem?_modify]
  simp only [if_true]
  rfl

theorem ahead_zero {r : Ring σ} (h : r.current < r.buckets.length) : r.ahead 0 = r.head := by
  rw [Ring.ahead, Ring.head, Nat.add_zero, Nat.mod_eq_of_lt h]

/-! ## The invariant -/

section Holds

variable {shared : α → Bool} {content : σ → List α} {k epoch : Nat} {entries : List (Nat × α)}
  {r : Ring σ}

theorem reach_append_singleton (d : Nat) (o : Nat × α) :
    reach shared k epoch d (entries ++ [o]) =
      reach shared k epoch d entries ++ if InReach shared k epoch d o then [o.2] else [] := by
  rw [reach, reach, List.filter_append, List.map_append, List.filter_singleton]
  cases InReach shared k epoch d o <;> rfl

theorem holds_replicate {b : σ} (hk : 0 < k) (hb : content b = []) :
    Holds shared content k 0 [] ⟨List.replicate k b, 0⟩ where
  length := by simp
  current := hk
  past := by simp
  ahead d hd := by
    refine ⟨b, ?_, by simpa [reach] using hb⟩
    simp [Ring.ahead, Nat.mod_lt _ hk]

theorem Holds.inRange (h : Holds shared content k epoch entries r) :
    r.current < r.buckets.length := by
  rw [h.length]
  exact h.current

/-- The current bucket holds the window. -/
theorem Holds.head (h : Holds shared content k epoch entries r) :
    ∃ b, r.head = some b ∧ content b = reach shared k epoch 0 entries := by
  rw [← ahead_zero h.inRange]
  exact h.ahead 0 (Nat.lt_of_le_of_lt (Nat.zero_le _) h.current)

theorem Holds.advance {reset : σ → σ} (h : Holds shared content k epoch entries r)
    (hreset : ∀ b, content (reset b) = []) :
    Holds shared content k (epoch + 1) entries (r.advance reset) where
  length := by rw [advance_length, h.length]
  current := by
    rw [advance_current h.inRange, h.length]
    exact Nat.mod_lt _ (Nat.lt_of_le_of_lt (Nat.zero_le _) h.current)
  past o ho := (h.past o ho).trans (Nat.le_succ _)
  ahead d hd := by
    rcases Nat.lt_or_ge (d + 1) k with hlt | hge
    · obtain ⟨b, hb, hcontent⟩ := h.ahead (d + 1) hlt
      refine ⟨b, ?_, ?_⟩
      · rw [ahead_advance h.inRange (by rw [h.length]; exact hlt), hb]
      · have hsum : epoch + 1 + d = epoch + (d + 1) := by omega
        rw [hcontent, reach, reach]
        congr 2
        funext o
        rw [InReach, InReach, hsum]
    · -- The bucket just emptied: no entry is that recent.
      obtain ⟨b, hb, -⟩ := h.head
      have hd' : d = r.buckets.length - 1 := by
        have := h.length
        omega
      refine ⟨reset b, ?_, ?_⟩
      · rw [hd', ahead_advance_last h.inRange, hb]
        rfl
      · have hnone : entries.filter (InReach shared k (epoch + 1) d) = [] := by
          rw [List.filter_eq_nil_iff]
          intro o ho
          have hpast := h.past o ho
          unfold InReach
          split <;> simp only [decide_eq_true_eq] <;> omega
        rw [hreset, reach, hnone, List.map_nil]

/-- All buckets are given an entry. -/
theorem Holds.mapAll {f : σ → σ} {x : α} (h : Holds shared content k epoch entries r)
    (hshared : shared x = true) (hf : ∀ b, content (f b) = content b ++ [x]) :
    Holds shared content k epoch (entries ++ [(epoch, x)]) (r.mapAll f) where
  length := by simpa [Ring.mapAll] using h.length
  current := h.current
  past o ho := by
    rcases List.mem_append.mp ho with hold | hnew
    · exact h.past o hold
    · rw [List.mem_singleton.mp hnew]
  ahead d hd := by
    obtain ⟨b, hb, hcontent⟩ := h.ahead d hd
    refine ⟨f b, ?_, ?_⟩
    · simp only [Ring.ahead, Ring.mapAll, List.length_map, List.getElem?_map] at hb ⊢
      rw [hb]
      rfl
    · -- The running epoch is in reach of every bucket.
      have hreach : InReach shared k epoch d (epoch, x) = true := by simpa [InReach, hshared] using hd
      rw [hf, hcontent, reach_append_singleton, hreach]
      rfl

/-- The current bucket alone is given an entry. -/
theorem Holds.setHead {b : σ} {x : α} (h : Holds shared content k epoch entries r) (b' : σ)
    (hown : shared x = false) (hb : r.head = some b) (hb' : content b' = content b ++ [x]) :
    Holds shared content k epoch (entries ++ [(epoch, x)]) (r.setHead b') where
  length := by simpa [Ring.setHead] using h.length
  current := h.current
  past o ho := by
    rcases List.mem_append.mp ho with hold | hnew
    · exact h.past o hold
    · rw [List.mem_singleton.mp hnew]
  ahead d hd := by
    obtain ⟨a, ha, hcontent⟩ := h.ahead d hd
    have hlength := h.length
    simp only [Ring.ahead, Ring.setHead, List.length_set] at ha ⊢
    rw [reach_append_singleton]
    rcases Nat.eq_zero_or_pos d with rfl | hpos
    · have hhere : r.current = (r.current + 0) % r.buckets.length := by
        rw [Nat.add_zero, Nat.mod_eq_of_lt h.inRange]
      have hreach : InReach shared k epoch 0 (epoch, x) = true := by simp [InReach, hown]
      rw [← hhere] at ha ⊢
      obtain rfl : a = b := Option.some.inj (ha.symm.trans hb)
      exact ⟨b', by rw [List.getElem?_set_self h.inRange], by rw [hb', hcontent, hreach]; rfl⟩
    · have hother : r.current ≠ (r.current + d) % r.buckets.length :=
        (add_mod_ne h.inRange hpos (hlength ▸ hd)).symm
      have hreach : InReach shared k epoch d (epoch, x) = false := by
        simp only [InReach, hown, Bool.false_eq_true, if_false, decide_eq_false_iff_not]
        omega
      refine ⟨a, by rw [List.getElem?_set_ne hother, ha], ?_⟩
      rw [hcontent, hreach]
      exact (List.append_nil _).symm

end Holds

end BucketRing
