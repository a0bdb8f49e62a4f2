/-
# PrometheusCpp.Lib.DotSegments -- removing dot segments from a URI path

The algorithm of RFC 3986, section 5.2.4: the path is moved from an input to an output, one segment
after the other; a segment `.` is dropped, and a segment `..` takes the segment in front of it along.
On a path of segments that are each led by a slash this is the identity if and only if none of them
is one of the two (`removeDotSegments_led_iff`).
-/
import PrometheusCpp.Lib.ByteString
import Mathlib.Data.List.DropRight

namespace DotSegments

open ByteString

def dot : UInt8 := 46

/-- The output without its last segment and the slash in front of it, if there is one. -/
def removeLastSegment (output : Bytes) : Bytes := (output.rdropWhile (· ≠ slash)).dropLast

/-- The first segment, with the slash in front of it, if there is one, up to the next slash. -/
def firstSegment : Bytes → Bytes
  | [] => []
  | c :: rest => c :: rest.takeWhile (· ≠ slash)

/-- The input begins with a slash and this word as a complete segment. -/
def Begins (word input : Bytes) : Prop :=
  slash :: word ++ [slash] <+: input ∨ input = slash :: word

instance (word input : Bytes) : Decidable (Begins word input) := by unfold Begins; infer_instance

/-- One round, of the input and the output. -/
def step (input output : Bytes) : Bytes × Bytes :=
  if [dot, dot, slash] <+: input then (input.drop 3, output)
  else if [dot, slash] <+: input then (input.drop 2, output)
  else if Begins [dot] input then (slash :: input.drop 3, output)
  else if Begins [dot, dot] input then (slash :: input.drop 4, removeLastSegment output)
  else if input = [dot] ∨ input = [dot, dot] then ([], output)
  else (input.drop (firstSegment input).length, output ++ firstSegment input)

/-- So many rounds, or until the input is empty. -/
def loop : Nat → Bytes → Bytes → Bytes
  | 0, _, output => output
  | rounds + 1, input, output =>
    if input = [] then output
    else
      let (input, output) := step input output
      loop rounds input output

/-- Every round makes the input shorter (`step_length`), so there are no more than it has bytes. -/
def removeDotSegments (path : Bytes) : Bytes := loop path.length path []

example : removeDotSegments (ascii "/a/b/c/./../../g") = ascii "/a/g" := by decide
example : removeDotSegments (ascii "mid/content=5/../6") = ascii "mid/6" := by decide

/-! ## Rounds -/

theorem Begins.length_lt {word input : Bytes} (h : Begins word input) :
    word.length < input.length := by
  rcases h with hprefix | rfl
  · have := hprefix.length_le
    simp only [List.length_append, List.length_cons] at this
    omega
  · simp

theorem removeLastSegment_length (output : Bytes) :
    (removeLastSegment output).length ≤ output.length := by
  have h := (List.rdropWhile_prefix (· ≠ slash) (l := output)).length_le
  rw [removeLastSegment, List.length_dropLast]
  omega

/-- A round makes the input shorter, and it adds no bytes. -/
theorem step_length {input output : Bytes} (h : input ≠ []) :
    (step input output).1.length < input.length ∧
      (step input output).1.length + (step input output).2.length ≤
        input.length + output.length := by
  have hpos := List.length_pos_iff.mpr h
  have hlast := removeLastSegment_length output
  unfold step
  split_ifs with h₁ h₂ h₃ h₄
  · simp only [List.length_drop]
    omega
  · simp only [List.length_drop]
    omega
  · have := h₃.length_lt
    simp only [List.length_cons, List.length_nil, List.length_drop] at this ⊢
    omega
  · have := h₄.length_lt
    simp only [List.length_cons, List.length_nil, List.length_drop] at this ⊢
    omega
  · simp only [List.length_nil]
    omega
  · obtain ⟨c, rest, rfl⟩ := List.exists_cons_of_ne_nil h
    have := (List.takeWhile_prefix (· ≠ slash) (l := rest)).length_le
    simp only [firstSegment, List.length_drop, List.length_append, List.length_cons]
    omega

theorem loop_length_le (rounds : Nat) : ∀ input output,
    (loop rounds input output).length ≤ input.length + output.length := by
  induction rounds with
  | zero => intro input output; exact Nat.le_add_left _ _
  | succ rounds ih =>
      intro input output
      unfold loop
      split_ifs with h
      · exact Nat.le_add_left _ _
      · exact (ih _ _).trans (step_length h).2

/-! ## Paths of led segments -/

section Led

variable {segment : Bytes} (hsegment : slash ∉ segment) (rest : List Bytes) (output : Bytes)

theorem takeWhile_led (rest : List Bytes) : (led slash rest).takeWhile (· ≠ slash) = [] := by
  cases rest with
  | nil => rfl
  | cons other rest => simp

theorem not_prefix_led {front : Bytes} (hfront : front.head? = some dot) :
    ¬ front <+: led slash (segment :: rest) := by
  intro h
  obtain ⟨tail, htail⟩ := h
  cases front with
  | nil => simp at hfront
  | cons c front =>
      rw [led_cons, List.cons_append, List.cons_append] at htail
      rw [(List.cons.inj htail).1, List.head?_cons] at hfront
      exact absurd hfront (by decide)

include hsegment

theorem takeWhile_segment {tail : Bytes} (htail : tail.takeWhile (· ≠ slash) = []) :
    (segment ++ tail).takeWhile (· ≠ slash) = segment := by
  rw [List.takeWhile_append_of_pos, htail, List.append_nil]
  intro c hc
  simp only [decide_eq_true_eq]
  rintro rfl
  exact hsegment hc

/-- A complete segment at the front is the first one. -/
theorem begins_led_iff {word : Bytes} (hword : slash ∉ word) :
    Begins word (led slash (segment :: rest)) ↔ segment = word := by
  have hfirst := takeWhile_segment hsegment (takeWhile_led rest)
  rw [led_cons, List.cons_append]
  constructor
  · rintro (⟨tail, htail⟩ | heq)
    · have hfront : word ++ slash :: tail = segment ++ led slash rest := by simpa using htail
      rw [← hfirst, ← hfront, takeWhile_segment hword (by simp)]
    · have hfront : segment ++ led slash rest = word ++ [] := by simpa using heq
      rw [← hfirst, hfront, takeWhile_segment hword rfl]
  · rintro rfl
    cases rest with
    | nil => exact .inr (by simp)
    | cons other rest => exact .inl ⟨other ++ led slash rest, by simp⟩

/-- A segment that is not one of dots is moved to the output. -/
theorem step_led (h₁ : segment ≠ [dot]) (h₂ : segment ≠ [dot, dot]) :
    step (led slash (segment :: rest)) output =
      (led slash rest, output ++ slash :: segment) := by
  have hone : slash ∉ [dot] := by decide
  have htwo : slash ∉ [dot, dot] := by decide
  have hfirst : firstSegment (led slash (segment :: rest)) = slash :: segment := by
    rw [led_cons, List.cons_append, firstSegment, takeWhile_segment hsegment (takeWhile_led rest)]
  have hdrop : (led slash (segment :: rest)).drop (slash :: segment).length = led slash rest := by
    rw [led_cons, List.drop_left]
  have hne : ∀ front : Bytes, front.head? = some dot → led slash (segment :: rest) ≠ front :=
    fun front hfront h => not_prefix_led rest hfront ⟨[], by rw [h, List.append_nil]⟩
  have hdots := not_or.mpr ⟨hne [dot] rfl, hne [dot, dot] rfl⟩
  unfold step
  rw [if_neg (not_prefix_led rest rfl), if_neg (not_prefix_led rest rfl),
    if_neg (mt (begins_led_iff hsegment rest hone).mp h₁),
    if_neg (mt (begins_led_iff hsegment rest htwo).mp h₂), if_neg hdots, hfirst, hdrop]

end Led

/-- A segment of dots is lost. -/
theorem step_led_dots {segment : Bytes} (h : segment = [dot] ∨ segment = [dot, dot])
    (rest : List Bytes) (output : Bytes) :
    (step (led slash (segment :: rest)) output).1.length +
      (step (led slash (segment :: rest)) output).2.length <
        (led slash (segment :: rest)).length + output.length := by
  have hslash : slash ∉ segment := by rcases h with rfl | rfl <;> decide
  have hlast := removeLastSegment_length output
  have hlength : (led slash (segment :: rest)).length =
      segment.length + 1 + (led slash rest).length := by
    rw [led_cons, List.length_append, List.length_cons]
  unfold step
  rw [if_neg (not_prefix_led rest rfl), if_neg (not_prefix_led rest rfl)]
  rcases h with rfl | rfl
  · rw [if_pos ((begins_led_iff hslash rest hslash).mpr rfl)]
    simp only [List.length_cons, List.length_drop, List.length_nil] at hlength ⊢
    omega
  · rw [if_neg fun hbegins => by simpa using (begins_led_iff hslash rest (by decide)).mp hbegins,
      if_pos ((begins_led_iff hslash rest hslash).mpr rfl)]
    simp only [List.length_cons, List.length_drop, List.length_nil] at hlength ⊢
    omega

/-- A path without segments of dots goes through as it is, and every other path gets shorter. -/
theorem loop_led {segments : List Bytes} (hslash : ∀ segment ∈ segments, slash ∉ segment) :
    ∀ (rounds : Nat) (output : Bytes), (led slash segments).length ≤ rounds →
      ([dot] ∉ segments ∧ [dot, dot] ∉ segments →
        loop rounds (led slash segments) output = output ++ led slash segments) ∧
      ([dot] ∈ segments ∨ [dot, dot] ∈ segments →
        (loop rounds (led slash segments) output).length <
          output.length + (led slash segments).length) := by
  induction segments with
  | nil =>
      intro rounds output _
      refine ⟨fun _ => ?_, by simp⟩
      cases rounds <;> simp [loop]
  | cons segment segments ih =>
      intro rounds output hrounds
      simp only [List.forall_mem_cons] at hslash
      have hne : led slash (segment :: segments) ≠ [] := by simp
      have hlength : (led slash (segment :: segments)).length =
          segment.length + 1 + (led slash segments).length := by
        rw [led_cons, List.length_append, List.length_cons]
      obtain ⟨rounds, rfl⟩ : ∃ n, rounds = n + 1 := ⟨rounds - 1, by omega⟩
      rw [loop, if_neg hne]
      simp only [List.mem_cons, not_or]
      by_cases hdots : segment = [dot] ∨ segment = [dot, dot]
      · have hstep := step_led_dots hdots segments output
        have hloop := loop_length_le rounds (step (led slash (segment :: segments)) output).1
          (step (led slash (segment :: segments)) output).2
        refine ⟨fun hnot => ?_, fun _ => by omega⟩
        exact absurd hdots (not_or.mpr ⟨hnot.1.1 ∘ Eq.symm, hnot.2.1 ∘ Eq.symm⟩)
      · obtain ⟨h₁, h₂⟩ := not_or.mp hdots
        obtain ⟨hkept, hlost⟩ := ih hslash.2 rounds (output ++ slash :: segment) (by omega)
        rw [step_led hslash.1 segments output h₁ h₂]
        refine ⟨fun hnot => ?_, fun hdot => ?_⟩
        · simp only [hkept ⟨hnot.1.2, hnot.2.2⟩, led_cons, List.append_assoc]
        · have hrest : [dot] ∈ segments ∨ [dot, dot] ∈ segments :=
            hdot.imp (·.resolve_left (h₁ ∘ Eq.symm)) (·.resolve_left (h₂ ∘ Eq.symm))
          have := hlost hrest
          simp only [List.length_append, List.length_cons] at this
          show (loop rounds (led slash segments) (output ++ slash :: segment)).length < _
          omega

theorem removeDotSegments_led_iff {segments : List Bytes}
    (hslash : ∀ segment ∈ segments, slash ∉ segment) :
    removeDotSegments (led slash segments) = led slash segments ↔
      [dot] ∉ segments ∧ [dot, dot] ∉ segments := by
  obtain ⟨hkept, hlost⟩ := loop_led hslash (led slash segments).length [] le_rfl
  constructor
  · intro heq
    by_contra hdots
    have hshorter := hlost (by tauto)
    rw [List.length_nil, Nat.zero_add] at hshorter
    exact hshorter.ne (congrArg List.length heq)
  · exact hkept


end DotSegments
