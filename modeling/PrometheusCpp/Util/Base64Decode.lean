/-
# PrometheusCpp.Util.Base64Decode -- the base64 decoder of `base64.h`

The decoder shifts every character's six bits into one 32-bit word, which it never clears, and takes
a group's bytes out of the word's low bits. Where it meets padding it has already shifted for the
padding character, and it takes the last bytes from another offset. Up to the alphabet and the
padding what it computes is `Sextets.toBytes` (`decodeLoop_text`), so it undoes the encoder
(`base64Decode_encoded`).
-/
import PrometheusCpp.Util.Base64

namespace PrometheusCpp

open ByteString

/-- `std::runtime_error`. -/
structure RuntimeError where
  what : String
  deriving DecidableEq

/-- `*it` as the source compares and adds it: plain `char` is signed. -/
def signed (c : UInt8) : Int := c.toInt8.toInt

/-- What the branches for the characters of the alphabet put into the word. -/
def sextet (c : UInt8) : Option UInt32 :=
  let it := signed c
  if it ≥ 0x41 ∧ it ≤ 0x5A then some (UInt32.ofInt (it - 0x41))
  else if it ≥ 0x61 ∧ it ≤ 0x7A then some (UInt32.ofInt (it - 0x47))
  else if it ≥ 0x30 ∧ it ≤ 0x39 then some (UInt32.ofInt (it + 0x04))
  else if it = 0x2B then some 0x3E
  else if it = 0x2F then some 0x3F
  else none

/-- The two nested loops from the inner one's `i` on. The input's length is a multiple of four, so
it ends where the outer loop looks for the end, at `i = 0`. -/
def decodeLoop (i : Nat) (temp : UInt32) (decoded : Bytes) : Bytes → Except RuntimeError Bytes
  | [] => .ok decoded
  | c :: rest =>
    let temp := temp <<< 6
    match sextet c with
    | some n =>
      let temp := temp ||| n
      if i + 1 < 4 then decodeLoop (i + 1) temp decoded rest
      else
        decodeLoop 0 temp
          (decoded ++ [((temp >>> 16) &&& 0x000000FF).toUInt8,
            ((temp >>> 8) &&& 0x000000FF).toUInt8, (temp &&& 0x000000FF).toUInt8]) rest
    | none =>
      if c = kPadCharacter then
        -- `input.end() - it`
        match (c :: rest).length with
        | 1 => .ok (decoded ++ [((temp >>> 16) &&& 0x000000FF).toUInt8,
            ((temp >>> 8) &&& 0x000000FF).toUInt8])
        | 2 => .ok (decoded ++ [((temp >>> 10) &&& 0x000000FF).toUInt8])
        | _ => .error ⟨"Invalid padding in base64!"⟩
      else .error ⟨"Invalid character in base64!"⟩

/-- The source counts the padding only to reserve memory. -/
def base64Decode (input : Bytes) : Except RuntimeError Bytes :=
  if input.length % 4 ≠ 0 then .error ⟨"Invalid base64 length!"⟩
  else decodeLoop 0 0 [] input

/-! ## Characters -/

theorem sextet_character {n : Nat} (h : n < 64) : sextet (character n) = some n.toUInt32 := by
  have hall : ∀ n : Fin 64, sextet (character n) = some n.val.toUInt32 := by decide +kernel
  exact hall ⟨n, h⟩

theorem sextet_pad : sextet kPadCharacter = none := by decide

/-! ## The word -/

/-- Shifting and filling the six bits is multiplying and adding, up to what leaves the word. -/
theorem shifted_toNat (temp : UInt32) {n : Nat} (h : n < 64) :
    (temp <<< 6 ||| n.toUInt32).toNat = (temp.toNat * 64 + n) % 2 ^ 32 := by
  have hn : n.toUInt32.toNat = n := by
    rw [Nat.toUInt32_eq, UInt32.toNat_ofNat', Nat.mod_eq_of_lt (by omega)]
  -- The bits that stay are a multiple of 64 also after the word is cut off.
  have hshift : (temp <<< 6).toNat = (temp.toNat % 2 ^ 26) <<< 6 := by
    rw [UInt32.toNat_shiftLeft, Nat.shiftLeft_eq, Nat.shiftLeft_eq]
    have : (6 : UInt32).toNat % 32 = 6 := rfl
    rw [this]
    omega
  rw [UInt32.toNat_or, hshift, hn, ← Nat.shiftLeft_add_eq_or_of_lt (i := 6) (by omega),
    Nat.shiftLeft_eq]
  omega

/-- The low bits of the word are the characters that came last, whatever was there before. -/
theorem shifted_mod {temp : UInt32} {k a : Nat} (hk : k + 6 ≤ 32) (h : temp.toNat % 2 ^ k = a)
    {n : Nat} (hn : n < 64) : (temp <<< 6 ||| n.toUInt32).toNat % 2 ^ (k + 6) = a * 64 + n := by
  have hpow : 2 ^ (k + 6) = 2 ^ k * 64 := Nat.pow_add 2 k 6
  have hlow : a < 2 ^ k := h ▸ Nat.mod_lt _ (Nat.two_pow_pos k)
  have hsplit : temp.toNat * 64 + n = a * 64 + n + 2 ^ k * 64 * (temp.toNat / 2 ^ k) := by
    have hdiv := Nat.mod_add_div temp.toNat (2 ^ k)
    rw [h] at hdiv
    calc temp.toNat * 64 + n = (a + 2 ^ k * (temp.toNat / 2 ^ k)) * 64 + n := by rw [hdiv]
      _ = a * 64 + 2 ^ k * 64 * (temp.toNat / 2 ^ k) + n := by rw [Nat.add_mul, Nat.mul_right_comm]
      _ = a * 64 + n + 2 ^ k * 64 * (temp.toNat / 2 ^ k) := Nat.add_right_comm _ _ _
  rw [shifted_toNat temp hn, Nat.mod_mod_of_dvd _ (Nat.pow_dvd_pow 2 hk), hpow, hsplit,
    Nat.add_mul_mod_self_left, Nat.mod_eq_of_lt (by omega)]

/-- A padding character shifts the word as a character of value zero. -/
theorem shifted_eq (temp : UInt32) : temp <<< 6 = temp <<< 6 ||| (0 : Nat).toUInt32 := by simp

/-- The lowest byte is taken without a shift. -/
theorem lowest_byte_eq {m v n : Nat} (hm : 8 ≤ m) {word : UInt32} (hword : word.toNat % 2 ^ m = v)
    (h : v % 256 = n % 256) : (word &&& 0x000000FF : UInt32).toUInt8 = n.toUInt8 := by
  have hmask : (0x000000FF : UInt32).toNat = 2 ^ 8 - 1 := rfl
  have hbyte : word.toNat % 256 = n % 256 := by
    rw [← h, ← hword, Nat.mod_mod_of_dvd _ (Nat.pow_dvd_pow 2 hm)]
  apply UInt8.toNat_inj.mp
  rw [UInt32.toNat_toUInt8, UInt32.toNat_and, hmask, Nat.and_two_pow_sub_one_eq_mod, Nat.mod_mod,
    Nat.toUInt8_eq, UInt8.toNat_ofNat']
  exact hbyte

/-- The byte from the bit `k` on is one of the number in the word's low bits. -/
theorem byte_eq (shift : UInt32) {k m v n : Nat} (hshift : shift.toNat = k) (hk : k + 8 ≤ m)
    (hm : m ≤ 32) {word : UInt32} (hword : word.toNat % 2 ^ m = v)
    (h : v / 2 ^ k % 256 = n % 256) :
    ((word >>> shift) &&& 0x000000FF).toUInt8 = n.toUInt8 := by
  have hpow : 2 ^ m = 2 ^ k * 2 ^ (m - k) := by rw [← Nat.pow_add, Nat.add_sub_cancel' (by omega)]
  have hshifted : (word >>> shift).toNat % 2 ^ (m - k) = v / 2 ^ k := by
    rw [UInt32.toNat_shiftRight, hshift, Nat.mod_eq_of_lt (show k < 32 by omega),
      Nat.shiftRight_eq_div_pow, ← hword, hpow, Nat.mod_mul_right_div_self]
  exact lowest_byte_eq (by omega) hshifted h

/-! ## The loop -/

theorem decodeLoop_character {n : Nat} (h : n < 64) (i : Nat) (temp : UInt32)
    (decoded rest : Bytes) (hi : i < 3) :
    decodeLoop i temp decoded (character n :: rest) =
      decodeLoop (i + 1) (temp <<< 6 ||| n.toUInt32) decoded rest := by
  rw [decodeLoop, sextet_character h]
  simp only
  rw [if_pos (by omega)]

/-- The word behind the characters of some numbers. -/
def shifted (temp : UInt32) (sextets : List Nat) : UInt32 :=
  sextets.foldl (fun temp n => temp <<< 6 ||| n.toUInt32) temp

/-- A whole group appends its three bytes. -/
theorem decodeLoop_group {p q r s : Nat} (hp : p < 64) (hq : q < 64) (hr : r < 64) (hs : s < 64)
    (temp : UInt32) (decoded rest : Bytes) :
    decodeLoop 0 temp decoded (character p :: character q :: character r :: character s :: rest) =
      decodeLoop 0 (shifted temp [p, q, r, s]) (decoded ++ [(p * 4 + q / 16).toUInt8,
        (q % 16 * 16 + r / 4).toUInt8, (r % 4 * 64 + s).toUInt8]) rest := by
  have h₁ := shifted_mod (k := 0) (by omega) (Nat.mod_one temp.toNat) hp
  have h₂ := shifted_mod (by omega) h₁ hq
  have h₃ := shifted_mod (by omega) h₂ hr
  have h₄ := shifted_mod (by omega) h₃ hs
  rw [decodeLoop_character hp 0 _ _ _ (by omega), decodeLoop_character hq 1 _ _ _ (by omega),
    decodeLoop_character hr 2 _ _ _ (by omega), decodeLoop, sextet_character hs]
  simp only
  rw [if_neg (by omega),
    byte_eq 16 (k := 16) (n := p * 4 + q / 16) rfl (by omega) (by omega) h₄ (by omega),
    byte_eq 8 (k := 8) (n := q % 16 * 16 + r / 4) rfl (by omega) (by omega) h₄ (by omega),
    lowest_byte_eq (n := r % 4 * 64 + s) (by omega) h₄ (by omega)]
  rfl

/-- Two padding characters end the text with one byte. -/
theorem decodeLoop_two {p q : Nat} (hp : p < 64) (hq : q < 64) (temp : UInt32) (decoded : Bytes) :
    decodeLoop 0 temp decoded [character p, character q, kPadCharacter, kPadCharacter] =
      .ok (decoded ++ [(p * 4 + q / 16).toUInt8]) := by
  have h₁ := shifted_mod (k := 0) (by omega) (Nat.mod_one temp.toNat) hp
  have h₂ := shifted_mod (by omega) h₁ hq
  have h₃ := shifted_mod (by omega) h₂ (n := 0) (by omega)
  rw [decodeLoop_character hp 0 _ _ _ (by omega), decodeLoop_character hq 1 _ _ _ (by omega),
    decodeLoop, sextet_pad, shifted_eq]
  simp only [if_true, List.length_cons, List.length_nil]
  rw [byte_eq 10 (k := 10) (n := p * 4 + q / 16) rfl (by omega) (by omega) h₃ (by omega)]

/-- One padding character ends it with two. -/
theorem decodeLoop_three {p q r : Nat} (hp : p < 64) (hq : q < 64) (hr : r < 64) (temp : UInt32)
    (decoded : Bytes) :
    decodeLoop 0 temp decoded [character p, character q, character r, kPadCharacter] =
      .ok (decoded ++ [(p * 4 + q / 16).toUInt8, (q % 16 * 16 + r / 4).toUInt8]) := by
  have h₁ := shifted_mod (k := 0) (by omega) (Nat.mod_one temp.toNat) hp
  have h₂ := shifted_mod (by omega) h₁ hq
  have h₃ := shifted_mod (by omega) h₂ hr
  have h₄ := shifted_mod (by omega) h₃ (n := 0) (by omega)
  rw [decodeLoop_character hp 0 _ _ _ (by omega), decodeLoop_character hq 1 _ _ _ (by omega),
    decodeLoop_character hr 2 _ _ _ (by omega), decodeLoop, sextet_pad, shifted_eq]
  simp only [if_true, List.length_cons, List.length_nil]
  rw [byte_eq 16 (k := 16) (n := p * 4 + q / 16) rfl (by omega) (by omega) h₄ (by omega),
    byte_eq 8 (k := 8) (n := q % 16 * 16 + r / 4) rfl (by omega) (by omega) h₄ (by omega)]

/-- The padding behind so many characters. -/
def pads (count : Nat) : Bytes := List.replicate ((4 - count % 4) % 4) kPadCharacter

/-- On characters of the alphabet and padding the loop puts their bits together. -/
theorem decodeLoop_text (sextets : List Nat) (hlt : ∀ n ∈ sextets, n < 64) {bytes : Bytes}
    (h : Sextets.toBytes sextets = some bytes) (temp : UInt32) (decoded : Bytes) :
    decodeLoop 0 temp decoded (sextets.map character ++ pads sextets.length) =
      .ok (decoded ++ bytes) := by
  induction sextets using Sextets.toBytes.induct generalizing temp decoded bytes with
  | case1 p q r s rest ih =>
      rw [Sextets.toBytes] at h
      obtain ⟨tail, htail, rfl⟩ := Option.map_eq_some_iff.mp h
      simp only [List.forall_mem_cons] at hlt
      obtain ⟨hp, hq, hr, hs, hrest⟩ := hlt
      have hpads : pads (p :: q :: r :: s :: rest).length = pads rest.length := by
        simp only [pads, List.length_cons]
        congr 1
        omega
      rw [hpads]
      simp only [List.map_cons, List.cons_append]
      rw [decodeLoop_group hp hq hr hs, ih hrest htail]
      simp
  | case2 p q r =>
      simp only [List.forall_mem_cons] at hlt
      obtain rfl := Option.some.inj h
      exact decodeLoop_three hlt.1 hlt.2.1 hlt.2.2.1 temp decoded
  | case3 p q =>
      simp only [List.forall_mem_cons] at hlt
      obtain rfl := Option.some.inj h
      exact decodeLoop_two hlt.1 hlt.2.1 temp decoded
  | case4 => exact absurd h (by simp [Sextets.toBytes])
  | case5 =>
      obtain rfl := Option.some.inj h
      rw [List.append_nil]
      rfl

theorem base64Decode_text (sextets : List Nat) (hlt : ∀ n ∈ sextets, n < 64) {bytes : Bytes}
    (h : Sextets.toBytes sextets = some bytes) :
    base64Decode (sextets.map character ++ pads sextets.length) = .ok bytes := by
  have hlength : (sextets.map character ++ pads sextets.length).length % 4 = 0 := by
    simp only [pads, List.length_append, List.length_map, List.length_replicate]
    omega
  rw [base64Decode, if_neg (not_not_intro hlength), decodeLoop_text sextets hlt h, List.nil_append]

/-- The encoder's padding fills the last group up. -/
theorem padding_eq (input : Bytes) :
    List.replicate (padding input) kPadCharacter = pads (Sextets.ofBytes input).length := by
  rw [pads]
  congr 1
  induction input using Sextets.ofBytes.induct with
  | case1 a b c rest ih =>
      simp only [padding, Sextets.ofBytes, List.length_cons] at ih ⊢
      omega
  | case2 a b => rfl
  | case3 a => rfl
  | case4 => rfl

theorem base64Decode_encoded (input : Bytes) : base64Decode (base64Encode input) = .ok input := by
  rw [base64Encode_eq, padding_eq]
  exact base64Decode_text _ (Sextets.lt_of_mem_ofBytes input) (Sextets.toBytes_ofBytes input)

end PrometheusCpp
