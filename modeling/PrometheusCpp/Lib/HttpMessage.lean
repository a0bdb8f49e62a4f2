/-
# PrometheusCpp.Lib.HttpMessage -- HTTP/1.1 messages whose length is given

A message is a start line, header fields, an empty line and a body; a field says how long the body
is, so a reader finds where the message ends and the next one begins. A message that is written is
read back, whatever comes behind it, unless a line break is inside one of its lines
(`readMessage_append`).
-/
import PrometheusCpp.Lib.DecimalReading
import Mathlib.Data.List.Infix

namespace HttpMessage

open ByteString

def carriageReturn : UInt8 := 13

def lineBreak : Bytes := [carriageReturn, newline]

def colon : UInt8 := 58

/-! ## Messages -/

structure Message where
  startLine : Bytes
  fields : List (Bytes × Bytes)
  body : Bytes
  deriving DecidableEq

def fieldLine (field : Bytes × Bytes) : Bytes := field.1 ++ colon :: space :: field.2

/-- The lines of a head, an empty one behind them. -/
def linesText (lines : List Bytes) : Bytes := lines.flatMap (· ++ lineBreak) ++ lineBreak

def Message.text (message : Message) : Bytes :=
  message.startLine ++ lineBreak ++ linesText (message.fields.map fieldLine) ++ message.body

/-! ## Reading -/

/-- The line up to the first line break, and what is behind it. -/
def readLine : Bytes → Option (Bytes × Bytes)
  | [] => none
  | c :: text =>
    if c = carriageReturn ∧ text.head? = some newline then some ([], text.tail)
    else (readLine text).map fun (line, rest) => (c :: line, rest)

/-- The lines up to an empty one. -/
def readLines : Nat → Bytes → Option (List Bytes × Bytes)
  | 0, _ => none
  | fuel + 1, text => do
    let (line, rest) ← readLine text
    if line = [] then some ([], rest)
    else
      let (lines, rest) ← readLines fuel rest
      some (line :: lines, rest)

def readField (line : Bytes) : Bytes × Bytes :=
  (before colon line, (behind colon line).dropWhile (· = space))

/-- The first message, and what is behind it. -/
def readMessage (text : Bytes) : Option (Message × Bytes) := do
  let (startLine, rest) ← readLine text
  let (lines, rest) ← readLines rest.length rest
  let fields := lines.map readField
  let length ← fields.lookup (ascii "Content-Length")
  let length := Decimal.digitsValue length
  if length ≤ rest.length then
    some ({ startLine, fields, body := rest.take length }, rest.drop length)
  else none

/-! ## Lines -/

/-- A line that is read has no line break in it. -/
theorem readLine_eq_some {text line rest : Bytes} (h : readLine text = some (line, rest)) :
    text = line ++ lineBreak ++ rest ∧ ¬ lineBreak <:+: line := by
  induction text generalizing line with
  | nil => cases h
  | cons c text ih =>
      unfold readLine at h
      split_ifs at h with hbreak
      · obtain ⟨hc, hhead⟩ := hbreak
        obtain ⟨tail, rfl⟩ := List.head?_eq_some_iff.mp hhead
        obtain ⟨rfl, rfl⟩ := Prod.mk.inj (Option.some.inj h)
        refine ⟨by rw [hc]; rfl, ?_⟩
        rw [List.infix_nil]
        exact List.cons_ne_nil _ _
      · obtain ⟨⟨line', rest'⟩, hread, heq⟩ := Option.map_eq_some_iff.mp h
        obtain ⟨rfl, rfl⟩ := Prod.mk.inj heq
        obtain ⟨htext, hnot⟩ := ih hread
        refine ⟨by rw [htext]; rfl, ?_⟩
        rw [List.infix_cons_iff]
        rintro (hfront | hbroken)
        · -- A line break at the front would have been seen.
          obtain ⟨hc, hmore⟩ := List.cons_prefix_cons.mp hfront
          obtain ⟨tail, rfl⟩ := hmore
          exact hbreak ⟨hc.symm, by rw [htext]; rfl⟩
        · exact hnot hbroken

theorem readLine_append {line : Bytes} (h : ¬ lineBreak <:+: line) (rest : Bytes) :
    readLine (line ++ lineBreak ++ rest) = some (line, rest) := by
  induction line with
  | nil => rfl
  | cons c line ih =>
      rw [List.infix_cons_iff] at h
      have hnot : ¬ (c = carriageReturn ∧ (line ++ lineBreak ++ rest).head? = some newline) := by
        rintro ⟨rfl, hhead⟩
        cases line with
        | nil => exact absurd (Option.some.inj hhead) (by decide)
        | cons d line =>
            obtain rfl : d = newline := Option.some.inj hhead
            exact h (.inl ⟨line, rfl⟩)
      rw [List.cons_append, List.cons_append, readLine, if_neg hnot, ih fun hbroken => h (.inr hbroken)]
      rfl

/-- What is in front of the first carriage return is in the line. -/
theorem readLine_append_left {front : Bytes} (h : carriageReturn ∉ front) (text : Bytes) :
    readLine (front ++ text) = (readLine text).map fun (line, rest) => (front ++ line, rest) := by
  induction front with
  | nil => exact Option.map_id'.symm
  | cons c front ih =>
      obtain ⟨hc, hfront⟩ := not_or.mp (mt List.mem_cons.mpr h)
      rw [List.cons_append, readLine, if_neg fun hbreak => hc hbreak.1.symm, ih hfront,
        Option.map_map]
      rfl

/-- A line goes no further than the next line break. -/
theorem prefix_of_readLine {front rest line more : Bytes}
    (h : readLine (front ++ lineBreak ++ rest) = some (line, more)) : line <+: front := by
  induction front generalizing line more with
  | nil =>
      obtain ⟨rfl, -⟩ := Prod.mk.inj (Option.some.inj h)
      exact List.nil_prefix
  | cons c front ih =>
      rw [List.cons_append, List.cons_append, readLine] at h
      split_ifs at h
      · obtain ⟨rfl, -⟩ := Prod.mk.inj (Option.some.inj h)
        exact List.nil_prefix
      · obtain ⟨⟨line', more'⟩, hread, heq⟩ := Option.map_eq_some_iff.mp h
        obtain ⟨rfl, -⟩ := Prod.mk.inj heq
        exact List.cons_prefix_cons.mpr ⟨rfl, ih hread⟩

theorem infix_append_iff {front text : Bytes} (h : carriageReturn ∉ front) :
    lineBreak <:+: front ++ text ↔ lineBreak <:+: text := by
  induction front with
  | nil => exact Iff.rfl
  | cons c front ih =>
      obtain ⟨hc, hfront⟩ := not_or.mp (mt List.mem_cons.mpr h)
      rw [List.cons_append, List.infix_cons_iff, ih hfront]
      exact or_iff_right fun hfront => hc (List.cons_prefix_cons.mp hfront).1

theorem infix_concat_iff {text : Bytes} {c : UInt8} (hc : c ≠ newline) :
    lineBreak <:+: text ++ [c] ↔ lineBreak <:+: text := by
  rw [List.infix_concat_iff]
  refine or_iff_right fun hsuffix => hc ?_
  have hlast := List.IsSuffix.getLast hsuffix (by decide)
  rw [List.getLast_concat] at hlast
  exact hlast.symm

theorem readLines_append {lines : List Bytes} (hnot : ∀ line ∈ lines, ¬ lineBreak <:+: line)
    (hne : ∀ line ∈ lines, line ≠ []) (rest : Bytes) : ∀ {fuel : Nat}, lines.length < fuel →
      readLines fuel (linesText lines ++ rest) = some (lines, rest) := by
  induction lines with
  | nil =>
      intro fuel hfuel
      obtain ⟨fuel, rfl⟩ := Nat.exists_eq_add_one_of_ne_zero (Nat.ne_of_gt hfuel)
      rfl
  | cons line lines ih =>
      intro fuel hfuel
      obtain ⟨fuel, rfl⟩ := Nat.exists_eq_add_one_of_ne_zero (Nat.ne_of_gt (Nat.zero_lt_of_lt hfuel))
      have htext : linesText (line :: lines) ++ rest =
          line ++ lineBreak ++ (linesText lines ++ rest) := by
        simp [linesText]
      rw [htext, readLines, readLine_append (hnot line List.mem_cons_self)]
      show (if line = [] then _ else _) = _
      rw [if_neg (hne line List.mem_cons_self), ih (fun l hl => hnot l (List.mem_cons_of_mem _ hl))
        (fun l hl => hne l (List.mem_cons_of_mem _ hl)) (Nat.lt_of_succ_lt_succ hfuel)]
      rfl

/-- The first line that is read starts with what is in front of the first carriage return. -/
theorem readLines_append_left {front : Bytes} (h : carriageReturn ∉ front) (hne : front ≠ [])
    {fuel : Nat} {text rest : Bytes} {lines : List Bytes}
    (hlines : readLines fuel (front ++ text) = some (lines, rest)) :
    ∃ line more others, readLine text = some (line, more) ∧ lines = (front ++ line) :: others := by
  obtain _ | fuel := fuel
  · cases hlines
  rw [readLines, readLine_append_left h, Option.bind_eq_bind] at hlines
  obtain ⟨⟨first, more⟩, hfirst, hlines⟩ := Option.bind_eq_some_iff.mp hlines
  obtain ⟨⟨line, more'⟩, hread, heq⟩ := Option.map_eq_some_iff.mp hfirst
  obtain ⟨rfl, rfl⟩ := Prod.mk.inj heq
  dsimp only at hlines
  rw [if_neg (List.append_ne_nil_of_left_ne_nil hne line)] at hlines
  obtain ⟨⟨others, _⟩, -, hlines⟩ := Option.bind_eq_some_iff.mp hlines
  obtain ⟨rfl, -⟩ := Prod.mk.inj (Option.some.inj hlines)
  exact ⟨line, more', others, hread, rfl⟩

/-! ## Fields -/

/-- The field is told from its line. -/
structure PlainField (field : Bytes × Bytes) : Prop where
  name : colon ∉ field.1
  value : field.2.head? ≠ some space
  line : ¬ lineBreak <:+: fieldLine field

theorem readField_fieldLine {field : Bytes × Bytes} (h : PlainField field) :
    readField (fieldLine field) = field := by
  have hvalue : field.2.dropWhile (· = space) = field.2 := by
    have hhead := h.value
    cases hcase : field.2 with
    | nil => rfl
    | cons c value =>
        rw [hcase] at hhead
        exact List.dropWhile_cons_of_neg fun hc => hhead (congrArg some (of_decide_eq_true hc))
  have hspace : (space :: field.2).dropWhile (· = space) = field.2.dropWhile (· = space) := rfl
  rw [readField, fieldLine, before_append h.name, behind_append h.name, hspace, hvalue]

/-! ## Messages are read back -/

/-- The lines are lines, and the length is that of the body. -/
structure Framed (message : Message) : Prop where
  startLine : ¬ lineBreak <:+: message.startLine
  fields : ∀ field ∈ message.fields, PlainField field
  length : message.fields.lookup (ascii "Content-Length") =
    some (Decimal.natText message.body.length)

theorem length_lt_linesText (lines : List Bytes) : lines.length < (linesText lines).length := by
  induction lines with
  | nil => decide
  | cons line lines ih =>
      simp only [linesText, List.flatMap_cons, List.length_append, List.length_cons] at ih ⊢
      have hbreak : lineBreak.length = 2 := rfl
      omega

theorem readMessage_append {message : Message} (h : Framed message) (rest : Bytes) :
    readMessage (message.text ++ rest) = some (message, rest) := by
  have htext : message.text ++ rest = message.startLine ++ lineBreak ++
      (linesText (message.fields.map fieldLine) ++ (message.body ++ rest)) := by
    simp [Message.text]
  have hlines : ∀ line ∈ message.fields.map fieldLine, ¬ lineBreak <:+: line := by
    intro line hline
    obtain ⟨field, hfield, rfl⟩ := List.mem_map.mp hline
    exact (h.fields field hfield).line
  have hne : ∀ line ∈ message.fields.map fieldLine, line ≠ [] := by
    intro line hline
    obtain ⟨field, -, rfl⟩ := List.mem_map.mp hline
    exact List.append_ne_nil_of_right_ne_nil _ (List.cons_ne_nil _ _)
  have hfuel : (message.fields.map fieldLine).length <
      (linesText (message.fields.map fieldLine) ++ (message.body ++ rest)).length := by
    refine (length_lt_linesText _).trans_le ?_
    rw [List.length_append]
    exact Nat.le_add_right _ _
  have hfields : (message.fields.map fieldLine).map readField = message.fields := by
    rw [List.map_map]
    exact (List.map_congr_left fun field hfield =>
      readField_fieldLine (h.fields field hfield)).trans (List.map_id _)
  have hbody : message.body.length ≤ (message.body ++ rest).length := by
    rw [List.length_append]
    exact Nat.le_add_right _ _
  simp only [htext, readMessage, readLine_append h.startLine, readLines_append hlines hne _ hfuel,
    hfields, h.length, Option.bind_eq_bind, Option.bind_some, Decimal.digitsValue_natText,
    List.take_left, List.drop_left]
  exact if_pos hbody

/-- The lines behind the first are those of the fields. -/
theorem fields_of_readMessage {startLine text rest : Bytes} {message : Message}
    (hstart : ¬ lineBreak <:+: startLine)
    (h : readMessage (startLine ++ lineBreak ++ text) = some (message, rest)) :
    ∃ lines more, readLines text.length text = some (lines, more) ∧
      message.fields = lines.map readField := by
  rw [readMessage, readLine_append hstart, Option.bind_eq_bind, Option.bind_some] at h
  obtain ⟨⟨lines, more⟩, hlines, h⟩ := Option.bind_eq_some_iff.mp h
  obtain ⟨length, -, h⟩ := Option.bind_eq_some_iff.mp h
  dsimp only at h
  split_ifs at h
  obtain ⟨rfl, -⟩ := Prod.mk.inj (Option.some.inj h)
  exact ⟨lines, more, hlines, rfl⟩

end HttpMessage
