/-
# PrometheusCpp.Lib.ByteString -- byte strings and separator-delimited text

A C++ `std::string` is a sequence of arbitrary bytes, so text is a `List UInt8` here and never a
Unicode string. The module has the ASCII literals the other modules write, and the two shapes of
delimited text every text format uses: pieces each *followed* by a separator (the lines of a file)
and pieces each *led* by one (the segments of a path). Splitting either shape at the separator
gives the pieces back, as long as no piece contains it.
-/
import Mathlib.Data.List.Basic
import Mathlib.Data.List.TakeWhile
import Mathlib.Tactic.SplitIfs

namespace ByteString

abbrev Bytes := List UInt8

/-- The bytes of an ASCII literal. -/
def ascii (s : String) : Bytes := s.toList.map fun c => c.toNat.toUInt8

def newline : UInt8 := 10
def space : UInt8 := 32
def quote : UInt8 := 34
def slash : UInt8 := 47
def backslash : UInt8 := 92
def underscore : UInt8 := 95

/-! ## Character classes -/

def isDigit (c : UInt8) : Bool := 48 ≤ c && c ≤ 57

def isLower (c : UInt8) : Bool := 97 ≤ c && c ≤ 122

def isUpper (c : UInt8) : Bool := 65 ≤ c && c ≤ 90

def isAlnum (c : UInt8) : Bool := isDigit c || isLower c || isUpper c

/-- A byte outside of a class is none of the bytes of a text over the class. -/
theorem not_mem_of_forall {class_ : UInt8 → Bool} {text : Bytes} (h : ∀ d ∈ text, class_ d = true)
    {c : UInt8} (hc : class_ c = false) : c ∉ text := by
  intro hmem
  rw [h c hmem] at hc
  exact Bool.noConfusion hc

/-! ## Delimited text -/

/-- Pieces each followed by the separator, as the lines of a text file. -/
def terminated (sep : UInt8) (pieces : List Bytes) : Bytes :=
  pieces.flatMap fun piece => piece ++ [sep]

/-- Pieces each led by the separator, as the segments of an absolute path. -/
def led (sep : UInt8) (pieces : List Bytes) : Bytes :=
  pieces.flatMap fun piece => sep :: piece

@[simp] theorem terminated_nil (sep : UInt8) : terminated sep [] = [] := rfl

@[simp] theorem terminated_cons (sep : UInt8) (piece : Bytes) (pieces : List Bytes) :
    terminated sep (piece :: pieces) = piece ++ sep :: terminated sep pieces := by
  simp [terminated]

@[simp] theorem terminated_append (sep : UInt8) (l₁ l₂ : List Bytes) :
    terminated sep (l₁ ++ l₂) = terminated sep l₁ ++ terminated sep l₂ := by
  simp [terminated]

@[simp] theorem led_nil (sep : UInt8) : led sep [] = [] := rfl

@[simp] theorem led_cons (sep : UInt8) (piece : Bytes) (pieces : List Bytes) :
    led sep (piece :: pieces) = sep :: piece ++ led sep pieces := by
  simp [led]

@[simp] theorem led_append (sep : UInt8) (l₁ l₂ : List Bytes) :
    led sep (l₁ ++ l₂) = led sep l₁ ++ led sep l₂ := by
  simp [led]

/-- Terminated pieces are split each by itself, with one empty piece behind the last separator. -/
theorem splitOn_terminated_flatMap (sep : UInt8) (pieces : List Bytes) :
    (terminated sep pieces).splitOn sep = pieces.flatMap (fun piece => piece.splitOn sep) ++ [[]] := by
  induction pieces with
  | nil => simp
  | cons piece pieces ih =>
      rw [terminated_cons, List.splitOn_append_cons_self, ih, List.flatMap_cons, List.append_assoc]

/-- Splitting terminated pieces leaves one empty piece behind the last separator. -/
theorem splitOn_terminated {sep : UInt8} {pieces : List Bytes}
    (h : ∀ piece ∈ pieces, sep ∉ piece) :
    (terminated sep pieces).splitOn sep = pieces ++ [[]] := by
  rw [splitOn_terminated_flatMap,
    List.flatMap_congr fun piece hpiece => List.splitOn_eq_singleton (h piece hpiece),
    List.flatMap_singleton']

/-- A text without the separator goes in front of the first piece. -/
theorem splitOn_append_of_not_mem {sep : UInt8} {front : Bytes} (h : sep ∉ front) (text : Bytes) :
    (front ++ text).splitOn sep = (text.splitOn sep).modifyHead (front ++ ·) := by
  induction front with
  | nil =>
      obtain ⟨piece, pieces, hsplit⟩ := List.exists_cons_of_ne_nil (List.splitOn_ne_nil sep text)
      simp [hsplit]
  | cons c front ih =>
      have hc : c ≠ sep := fun heq => h (heq ▸ List.mem_cons_self)
      rw [List.cons_append, List.splitOn_cons_eq_if_modifyHead, if_neg (by simpa using hc),
        ih fun hmem => h (List.mem_cons_of_mem c hmem), List.modifyHead_modifyHead]
      rfl

/-- Splitting led pieces leaves one empty piece in front of the first separator. -/
theorem splitOn_led {sep : UInt8} {pieces : List Bytes} (h : ∀ piece ∈ pieces, sep ∉ piece) :
    (led sep pieces).splitOn sep = [] :: pieces := by
  -- Carried with the piece already read, which is empty only at the start of the text.
  have carried : ∀ (pieces : List Bytes) (front : Bytes), sep ∉ front →
      (∀ piece ∈ pieces, sep ∉ piece) →
      (front ++ led sep pieces).splitOn sep = front :: pieces := by
    intro pieces
    induction pieces with
    | nil =>
        intro front hfront _
        simpa using List.splitOn_eq_singleton hfront
    | cons piece pieces ih =>
        intro front hfront hpieces
        have hpiece : sep ∉ piece := hpieces piece (by simp)
        have hrest : ∀ p ∈ pieces, sep ∉ p := fun p hp => hpieces p (List.mem_cons_of_mem _ hp)
        rw [led_cons, List.cons_append, List.splitOn_append_cons_self_of_not_mem hfront,
          ih piece hpiece hrest]
  simpa using carried pieces [] (by simp) h

/-- A terminated text has at least one separator for each piece. -/
theorem length_le_count_terminated (sep : UInt8) (pieces : List Bytes) :
    pieces.length ≤ (terminated sep pieces).count sep := by
  induction pieces with
  | nil => exact Nat.zero_le _
  | cons piece pieces ih =>
      rw [terminated_cons, List.count_append, List.count_cons_self, List.length_cons]
      omega

/-- It has no more than that only when the pieces hold none themselves. -/
theorem not_mem_of_count_terminated {sep : UInt8} {pieces : List Bytes}
    (h : (terminated sep pieces).count sep ≤ pieces.length) : ∀ piece ∈ pieces, sep ∉ piece := by
  induction pieces with
  | nil => exact fun _ hpiece => absurd hpiece List.not_mem_nil
  | cons first pieces ih =>
      have hle := length_le_count_terminated sep pieces
      rw [terminated_cons, List.count_append, List.count_cons_self, List.length_cons] at h
      intro piece hpiece
      rcases List.mem_cons.mp hpiece with rfl | hrest
      · apply List.count_eq_zero.mp
        omega
      · exact ih (by omega) piece hrest

/-- Splitting makes one piece more than there are separators. -/
theorem length_splitOn (sep : UInt8) (text : Bytes) :
    (text.splitOn sep).length = text.count sep + 1 := by
  induction text with
  | nil => rfl
  | cons c text ih =>
      rw [List.splitOn_cons_eq_if_modifyHead, List.count_cons]
      split_ifs
      · rw [List.length_cons, ih]
      · rw [List.length_modifyHead, ih, Nat.add_zero]

/-! ## The first separator -/

/-- What is in front of the first separator, all of the text if there is none. -/
def before (sep : UInt8) (text : Bytes) : Bytes := text.takeWhile (· ≠ sep)

/-- What is behind the first separator, nothing if there is none. -/
def behind (sep : UInt8) (text : Bytes) : Bytes := (text.dropWhile (· ≠ sep)).drop 1

section First

variable {sep : UInt8} {a : Bytes}

theorem all_ne (h : sep ∉ a) : ∀ c ∈ a, decide (c ≠ sep) = true := fun _ hc =>
  decide_eq_true fun heq => h (heq ▸ hc)

theorem before_append (h : sep ∉ a) (b : Bytes) : before sep (a ++ sep :: b) = a := by
  rw [before, List.takeWhile_append_of_pos (all_ne h), List.takeWhile_cons_of_neg (by simp),
    List.append_nil]

theorem behind_append (h : sep ∉ a) (b : Bytes) : behind sep (a ++ sep :: b) = b := by
  rw [behind, List.dropWhile_append_of_pos (all_ne h), List.dropWhile_cons_of_neg (by simp)]
  rfl

theorem before_of_not_mem (h : sep ∉ a) : before sep a = a :=
  List.takeWhile_eq_self_iff.mpr (all_ne h)

theorem behind_of_not_mem (h : sep ∉ a) : behind sep a = [] := by
  rw [behind, List.dropWhile_eq_nil_iff.mpr (all_ne h)]
  rfl

end First

end ByteString
