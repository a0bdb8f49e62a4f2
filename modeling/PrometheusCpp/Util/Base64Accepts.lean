/-
# PrometheusCpp.Util.Base64Accepts -- what the base64 decoder takes for base64

The decoder looks at the padding only at its first sign: at the end of the text or one byte in front
of it this ends the loop, and the byte behind a sign that is the last but one is never looked at. So
besides padded text (`Padded`) it takes text whose last group is two characters, one sign and
anything else (`Loose`), and no other text (`base64Decode_ok_iff`).
-/
import PrometheusCpp.Util.Base64Decode
import Mathlib.Data.List.TakeDrop

namespace PrometheusCpp

open ByteString

/-! ## Text in groups of four -/

/-- A character over A-Z a-z 0-9 + /. -/
def IsCharacter (c : UInt8) : Prop :=
  isUpper c = true ∨ isLower c = true ∨ isDigit c = true ∨ c = plus ∨ c = slash

instance : DecidablePred IsCharacter := fun c => by unfold IsCharacter; infer_instance

/-- Groups of four characters with something behind them. -/
def GroupsThen (last s : Bytes) : Prop :=
  ∃ groups : List Bytes,
    (∀ group ∈ groups, group.length = 4 ∧ ∀ c ∈ group, IsCharacter c) ∧ s = groups.flatten ++ last

/-- Groups of four characters, the last of which may have one or two padding characters. -/
def Padded (s : Bytes) : Prop :=
  GroupsThen [] s ∨
    (∃ p q, IsCharacter p ∧ IsCharacter q ∧ GroupsThen [p, q, kPadCharacter, kPadCharacter] s) ∨
    ∃ p q r, IsCharacter p ∧ IsCharacter q ∧ IsCharacter r ∧ GroupsThen [p, q, r, kPadCharacter] s

/-- Groups of four characters, and a last one with a padding character that another byte follows. -/
def Loose (s : Bytes) : Prop :=
  ∃ p q c, IsCharacter p ∧ IsCharacter q ∧ c ≠ kPadCharacter ∧
    GroupsThen [p, q, kPadCharacter, c] s

theorem not_isCharacter_pad : ¬ IsCharacter kPadCharacter := by decide

/-- Characters with something behind them, however many they are. -/
def CharactersThen (last s : Bytes) : Prop :=
  ∃ characters : Bytes, (∀ c ∈ characters, IsCharacter c) ∧ s = characters ++ last

theorem CharactersThen.cons {last s : Bytes} {c : UInt8} (hc : IsCharacter c)
    (h : CharactersThen last s) : CharactersThen last (c :: s) := by
  obtain ⟨characters, hall, rfl⟩ := h
  exact ⟨c :: characters, List.forall_mem_cons.mpr ⟨hc, hall⟩, rfl⟩

/-- Characters in front of the end are the same as groups of them and what is left over. -/
theorem exists_groups (characters : Bytes) (h : ∀ c ∈ characters, IsCharacter c) :
    ∃ rest : Bytes, rest.length = characters.length % 4 ∧ (∀ c ∈ rest, IsCharacter c) ∧
      ∀ last, GroupsThen (rest ++ last) (characters ++ last) := by
  induction hn : characters.length using Nat.strong_induction_on generalizing characters with
  | _ n ih =>
      by_cases hshort : characters.length < 4
      · exact ⟨characters, by omega, h, fun last => ⟨[], by simp, rfl⟩⟩
      · obtain ⟨rest, hlength, hrest, hgroups⟩ := ih (characters.drop 4).length
          (by rw [List.length_drop]; omega) (characters.drop 4)
          (fun c hc => h c (List.mem_of_mem_drop hc)) rfl
        refine ⟨rest, by rw [hlength, List.length_drop]; omega, hrest, fun last => ?_⟩
        obtain ⟨groups, hall, heq⟩ := hgroups last
        refine ⟨characters.take 4 :: groups, List.forall_mem_cons.mpr ⟨⟨?_, ?_⟩, hall⟩, ?_⟩
        · rw [List.length_take]
          omega
        · exact fun c hc => h c (List.mem_of_mem_take hc)
        · rw [List.flatten_cons, List.append_assoc, ← heq, ← List.append_assoc,
            List.take_append_drop]

theorem GroupsThen.charactersThen {last s : Bytes} (h : GroupsThen last s) :
    CharactersThen last s ∧ s.length % 4 = last.length % 4 := by
  obtain ⟨groups, hall, rfl⟩ := h
  refine ⟨⟨groups.flatten, ?_, rfl⟩, ?_⟩
  · intro c hc
    obtain ⟨group, hgroup, hmem⟩ := List.mem_flatten.mp hc
    exact (hall group hgroup).2 c hmem
  · have hflatten : groups.flatten.length % 4 = 0 := by
      induction groups with
      | nil => rfl
      | cons group groups ih =>
          rw [List.flatten_cons, List.length_append, (hall group List.mem_cons_self).1]
          have := ih fun other hother => hall other (List.mem_cons_of_mem _ hother)
          omega
    rw [List.length_append]
    omega

/-- Characters may be counted to what is in front of the end. -/
theorem CharactersThen.of_append (middle : Bytes) {last s : Bytes}
    (h : CharactersThen (middle ++ last) s) (hmiddle : ∀ c ∈ middle, IsCharacter c) :
    CharactersThen last s := by
  obtain ⟨characters, hall, rfl⟩ := h
  refine ⟨characters ++ middle, ?_, (List.append_assoc _ _ _).symm⟩
  intro c hc
  exact (List.mem_append.mp hc).elim (hall c) (hmiddle c)

/-- Behind characters whose number is known up to whole groups. -/
theorem CharactersThen.groupsThen {last s : Bytes} (h : CharactersThen last s) :
    ∃ rest : Bytes, (rest.length + last.length) % 4 = s.length % 4 ∧ rest.length < 4 ∧
      (∀ c ∈ rest, IsCharacter c) ∧ GroupsThen (rest ++ last) s := by
  obtain ⟨characters, hall, rfl⟩ := h
  obtain ⟨rest, hlength, hrest, hgroups⟩ := exists_groups characters hall
  exact ⟨rest, by rw [List.length_append]; omega, by omega, hrest, hgroups last⟩

theorem padded_iff (s : Bytes) :
    Padded s ↔ s.length % 4 = 0 ∧ (CharactersThen [] s ∨ CharactersThen [kPadCharacter] s ∨
      CharactersThen [kPadCharacter, kPadCharacter] s) := by
  constructor
  · rintro (h | ⟨p, q, hp, hq, h⟩ | ⟨p, q, r, hp, hq, hr, h⟩) <;>
      obtain ⟨hcharacters, hlength⟩ := h.charactersThen <;> refine ⟨by simpa using hlength, ?_⟩
    · exact .inl hcharacters
    · exact .inr (.inr (.of_append [p, q] hcharacters (by simp [hp, hq])))
    · exact .inr (.inl (.of_append [p, q, r] hcharacters (by simp [hp, hq, hr])))
  · rintro ⟨hlength, h | h | h⟩ <;>
      obtain ⟨rest, hmod, hlt, hrest, hgroups⟩ := h.groupsThen <;>
      simp only [List.length_nil, List.length_cons] at hmod
    · obtain rfl := List.eq_nil_of_length_eq_zero (l := rest) (by omega)
      exact .inl hgroups
    · obtain ⟨p, q, r, rfl⟩ := List.length_eq_three.mp (show rest.length = 3 by omega)
      simp only [List.forall_mem_cons] at hrest
      exact .inr (.inr ⟨p, q, r, hrest.1, hrest.2.1, hrest.2.2.1, hgroups⟩)
    · obtain ⟨p, q, rfl⟩ := List.length_eq_two.mp (show rest.length = 2 by omega)
      simp only [List.forall_mem_cons] at hrest
      exact .inr (.inl ⟨p, q, hrest.1, hrest.2.1, hgroups⟩)

theorem loose_iff (s : Bytes) :
    Loose s ↔ s.length % 4 = 0 ∧ ∃ c, c ≠ kPadCharacter ∧ CharactersThen [kPadCharacter, c] s := by
  constructor
  · rintro ⟨p, q, c, hp, hq, hc, h⟩
    obtain ⟨hcharacters, hlength⟩ := h.charactersThen
    exact ⟨by simpa using hlength, c, hc, .of_append [p, q] hcharacters (by simp [hp, hq])⟩
  · rintro ⟨hlength, c, hc, h⟩
    obtain ⟨rest, hmod, hlt, hrest, hgroups⟩ := h.groupsThen
    simp only [List.length_nil, List.length_cons] at hmod
    obtain ⟨p, q, rfl⟩ := List.length_eq_two.mp (show rest.length = 2 by omega)
    simp only [List.forall_mem_cons] at hrest
    exact ⟨p, q, c, hrest.1, hrest.2.1, hc, hgroups⟩

/-! ## The loop -/

theorem sextet_isSome_iff (c : UInt8) : (sextet c).isSome = true ↔ IsCharacter c := by
  have hall : ∀ n < 256, (sextet n.toUInt8).isSome = true ↔ IsCharacter n.toUInt8 := by
    decide +kernel
  have h := hall c.toNat c.toNat_lt
  rwa [show c.toNat.toUInt8 = c from UInt8.ofNat_toNat] at h

theorem charactersThen_cons_of_not {last rest : Bytes} {c : UInt8} (hc : ¬ IsCharacter c) :
    CharactersThen last (c :: rest) ↔ last = c :: rest := by
  constructor
  · rintro ⟨characters, hall, heq⟩
    cases characters with
    | nil => exact heq.symm
    | cons d characters =>
        obtain rfl := (List.cons.inj heq).1
        exact absurd (hall c List.mem_cons_self) hc
  · rintro rfl
    exact ⟨[], by simp, rfl⟩

/-- A character in front of what begins with none makes no difference. -/
theorem charactersThen_cons {last rest : Bytes} {c : UInt8} (hc : IsCharacter c)
    (hlast : ∀ d ∈ last.head?, ¬ IsCharacter d) :
    CharactersThen last (c :: rest) ↔ CharactersThen last rest := by
  refine ⟨?_, .cons hc⟩
  rintro ⟨characters, hall, heq⟩
  cases characters with
  | nil =>
      have hhead : last.head? = some c := by rw [← List.nil_append last, ← heq, List.head?_cons]
      exact absurd hc (hlast c hhead)
  | cons d characters =>
      exact ⟨characters, fun e he => hall e (List.mem_cons_of_mem _ he), (List.cons.inj heq).2⟩

/-- The loop returns on characters with at most one padding character and one byte behind it. -/
theorem decodeLoop_ok_iff (text : Bytes) : ∀ (i : Nat) (temp : UInt32) (decoded : Bytes),
    (∃ bytes, decodeLoop i temp decoded text = .ok bytes) ↔ CharactersThen [] text ∨
      CharactersThen [kPadCharacter] text ∨ ∃ c, CharactersThen [kPadCharacter, c] text := by
  induction text with
  | nil => intro i temp decoded; exact iff_of_true ⟨_, rfl⟩ (.inl ⟨[], by simp, rfl⟩)
  | cons c rest ih =>
      intro i temp decoded
      by_cases hc : IsCharacter c
      · obtain ⟨n, hn⟩ := Option.isSome_iff_exists.mp ((sextet_isSome_iff c).mpr hc)
        have hpad : ∀ d, ∀ e ∈ (kPadCharacter :: d).head?, ¬ IsCharacter e := by
          intro d e he
          obtain rfl := Option.some.inj he
          exact not_isCharacter_pad
        rw [charactersThen_cons hc (by simp), charactersThen_cons hc (hpad _)]
        simp only [charactersThen_cons hc (hpad _)]
        rw [decodeLoop, hn]
        simp only
        split_ifs <;> exact ih _ _ _
      · have hn : sextet c = none := by
          rw [← Option.not_isSome_iff_eq_none, sextet_isSome_iff]
          exact hc
        simp only [charactersThen_cons_of_not hc]
        rw [decodeLoop, hn]
        simp only
        by_cases hpad : c = kPadCharacter
        · subst hpad
          rcases rest with _ | ⟨d, _ | ⟨e, rest⟩⟩ <;> simp
        · simp [hpad, Ne.symm hpad]

/-- The decoder returns on padded text and on loosely padded text. -/
theorem base64Decode_ok_iff (s : Bytes) :
    (∃ bytes, base64Decode s = .ok bytes) ↔ Padded s ∨ Loose s := by
  rw [padded_iff, loose_iff, ← and_or_left]
  unfold base64Decode
  split_ifs with hlength
  · simp [hlength]
  · rw [decodeLoop_ok_iff, and_iff_right (not_not.mp hlength), or_assoc, or_assoc]
    refine or_congr Iff.rfl (or_congr Iff.rfl ⟨?_, ?_⟩)
    · rintro ⟨c, h⟩
      by_cases hc : c = kPadCharacter
      · exact .inl (hc ▸ h)
      · exact .inr ⟨c, hc, h⟩
    · rintro (h | ⟨c, -, h⟩)
      · exact ⟨_, h⟩
      · exact ⟨c, h⟩

/-- The bytes behind the characters tell the two apart. -/
theorem Loose.not_padded {s : Bytes} (h : Loose s) : ¬ Padded s := by
  obtain ⟨-, c, hc, characters, hall, rfl⟩ := (loose_iff s).mp h
  have hmem : kPadCharacter ∈ characters ++ [kPadCharacter, c] := by simp
  intro hpadded
  obtain ⟨-, ⟨others, hothers, heq⟩ | ⟨others, hothers, heq⟩ | ⟨others, hothers, heq⟩⟩ :=
    (padded_iff _).mp hpadded
  · rw [heq, List.append_nil] at hmem
    exact not_isCharacter_pad (hothers _ hmem)
  · have hlast := congrArg List.getLast? heq
    simp only [List.getLast?_append, List.getLast?_cons_cons, List.getLast?_singleton,
      Option.some_or] at hlast
    exact hc (Option.some.inj hlast)
  · have hlast := congrArg List.getLast? heq
    simp only [List.getLast?_append, List.getLast?_cons_cons, List.getLast?_singleton,
      Option.some_or] at hlast
    exact hc (Option.some.inj hlast)

end PrometheusCpp
