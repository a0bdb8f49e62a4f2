/-
# PrometheusCpp.Util.Base64 -- the base64 encoder of `base64.h`

The encoder puts three bytes into a 32-bit word and looks its four groups of six bits up in the
alphabet; the ends with one and two bytes are padded. Up to the alphabet and the padding these
groups are `Sextets.ofBytes` (`base64Encode_eq`).
-/
import PrometheusCpp.Lib.Sextets
import Mathlib.Algebra.Group.Nat.Defs

namespace PrometheusCpp

open ByteString

def kEncodeLookup : Bytes :=
  ascii "ABCDEFGHIJKLMNOPQRSTUVWXYZabcdefghijklmnopqrstuvwxyz0123456789+/"

def kPadCharacter : UInt8 := 61

/-- `kEncodeLookup[i]`; the zero behind the last character is the end of the C string. -/
def encodeLookup (i : UInt32) : UInt8 := kEncodeLookup.getD i.toNat 0

/-- The loop over whole groups and the `switch` over what is left behind them. -/
def base64Encode : Bytes → Bytes
  | a :: b :: c :: rest =>
    let temp := (a.toUInt32 <<< 16) + (b.toUInt32 <<< 8) + c.toUInt32
    encodeLookup ((temp &&& 0x00FC0000) >>> 18) :: encodeLookup ((temp &&& 0x0003F000) >>> 12) ::
      encodeLookup ((temp &&& 0x00000FC0) >>> 6) :: encodeLookup (temp &&& 0x0000003F) ::
      base64Encode rest
  | [a, b] =>
    let temp := (a.toUInt32 <<< 16) + (b.toUInt32 <<< 8)
    [encodeLookup ((temp &&& 0x00FC0000) >>> 18), encodeLookup ((temp &&& 0x0003F000) >>> 12),
      encodeLookup ((temp &&& 0x00000FC0) >>> 6), kPadCharacter]
  | [a] =>
    let temp := a.toUInt32 <<< 16
    [encodeLookup ((temp &&& 0x00FC0000) >>> 18), encodeLookup ((temp &&& 0x0003F000) >>> 12),
      kPadCharacter, kPadCharacter]
  | [] => []

def minus : UInt8 := 45
def plus : UInt8 := 43

def base64urlEncode (input : Bytes) : Bytes :=
  (base64Encode input).map fun c =>
    if c = plus then minus else if c = slash then underscore else c

/-! ## The groups of a word -/

/-- The character of a number below 64. -/
def character (n : Nat) : UInt8 := kEncodeLookup.getD n 0

/-- How many padding characters there are. -/
def padding (input : Bytes) : Nat := (3 - input.length % 3) % 3

theorem word_toNat (a b c : UInt8) :
    ((a.toUInt32 <<< 16) + (b.toUInt32 <<< 8) + c.toUInt32).toNat =
      a.toNat * 65536 + b.toNat * 256 + c.toNat := by
  have ha := a.toNat_lt
  have hb := b.toNat_lt
  have hc := c.toNat_lt
  simp [Nat.shiftLeft_eq]
  omega

theorem masked_toNat (word mask : UInt32) {k n : Nat} (hmask : mask.toNat >>> k = 2 ^ n - 1) :
    (word.toNat &&& mask.toNat) >>> k = word.toNat / 2 ^ k % 2 ^ n := by
  rw [Nat.shiftRight_and_distrib, hmask, Nat.and_two_pow_sub_one_eq_mod, Nat.shiftRight_eq_div_pow]

theorem group_toNat (word : UInt32) :
    ((word &&& 0x00FC0000) >>> 18).toNat = word.toNat / 262144 % 64 ∧
      ((word &&& 0x0003F000) >>> 12).toNat = word.toNat / 4096 % 64 ∧
      ((word &&& 0x00000FC0) >>> 6).toNat = word.toNat / 64 % 64 ∧
      (word &&& 0x0000003F).toNat = word.toNat % 64 := by
  refine ⟨?_, ?_, ?_, ?_⟩
  · exact masked_toNat word 0x00FC0000 (k := 18) (n := 6) (by decide)
  · exact masked_toNat word 0x0003F000 (k := 12) (n := 6) (by decide)
  · exact masked_toNat word 0x00000FC0 (k := 6) (n := 6) (by decide)
  · have := masked_toNat word 0x0000003F (k := 0) (n := 6) (by decide)
    simpa using this

/-- The characters of a word's four groups. -/
theorem lookup_word {word : UInt32} {n : Nat} (h : word.toNat = n) :
    encodeLookup ((word &&& 0x00FC0000) >>> 18) = character (n / 262144 % 64) ∧
      encodeLookup ((word &&& 0x0003F000) >>> 12) = character (n / 4096 % 64) ∧
      encodeLookup ((word &&& 0x00000FC0) >>> 6) = character (n / 64 % 64) ∧
      encodeLookup (word &&& 0x0000003F) = character (n % 64) := by
  obtain ⟨h₁, h₂, h₃, h₄⟩ := group_toNat word
  rw [h] at h₁ h₂ h₃ h₄
  exact ⟨congrArg character h₁, congrArg character h₂, congrArg character h₃,
    congrArg character h₄⟩

/-- The encoder is the groups of six bits under its alphabet, and padding. -/
theorem base64Encode_eq (input : Bytes) :
    base64Encode input =
      (Sextets.ofBytes input).map character ++ List.replicate (padding input) kPadCharacter := by
  induction input using base64Encode.induct with
  | case1 a b c rest ih =>
      have ha := a.toNat_lt
      have hb := b.toNat_lt
      have hc := c.toNat_lt
      -- The four groups are the digits of the word to base 64.
      obtain ⟨h₁, h₂, h₃, h₄⟩ := lookup_word (word_toNat a b c)
      have hpadding : padding (a :: b :: c :: rest) = padding rest := by
        simp only [padding, List.length_cons]
        omega
      rw [base64Encode, h₁, h₂, h₃, h₄, ih, hpadding, Sextets.ofBytes,
        show a.toNat / 4 = (a.toNat * 65536 + b.toNat * 256 + c.toNat) / 262144 % 64 by omega,
        show a.toNat % 4 * 16 + b.toNat / 16 =
          (a.toNat * 65536 + b.toNat * 256 + c.toNat) / 4096 % 64 by omega,
        show b.toNat % 16 * 4 + c.toNat / 64 =
          (a.toNat * 65536 + b.toNat * 256 + c.toNat) / 64 % 64 by omega,
        show c.toNat % 64 = (a.toNat * 65536 + b.toNat * 256 + c.toNat) % 64 by omega]
      rfl
  | case2 a b =>
      -- The word of two bytes is that of three with a zero behind.
      have ha := a.toNat_lt
      have hb := b.toNat_lt
      have hword : ((a.toUInt32 <<< 16) + (b.toUInt32 <<< 8)).toNat =
          a.toNat * 65536 + b.toNat * 256 := by simpa using word_toNat a b 0
      obtain ⟨h₁, h₂, h₃, -⟩ := lookup_word hword
      rw [base64Encode, h₁, h₂, h₃, Sextets.ofBytes,
        show a.toNat / 4 = (a.toNat * 65536 + b.toNat * 256) / 262144 % 64 by omega,
        show a.toNat % 4 * 16 + b.toNat / 16 = (a.toNat * 65536 + b.toNat * 256) / 4096 % 64 by omega,
        show b.toNat % 16 * 4 = (a.toNat * 65536 + b.toNat * 256) / 64 % 64 by omega]
      rfl
  | case3 a =>
      have ha := a.toNat_lt
      have hword : (a.toUInt32 <<< 16).toNat = a.toNat * 65536 := by simpa using word_toNat a 0 0
      obtain ⟨h₁, h₂, -, -⟩ := lookup_word hword
      rw [base64Encode, h₁, h₂, Sextets.ofBytes,
        show a.toNat / 4 = a.toNat * 65536 / 262144 % 64 by omega,
        show a.toNat % 4 * 16 = a.toNat * 65536 / 4096 % 64 by omega]
      rfl
  | case4 => rfl

/-- The character of a number below 64 in the alphabet that is safe in a path. -/
def urlCharacter (n : Nat) : UInt8 :=
  if character n = plus then minus else if character n = slash then underscore else character n

theorem base64urlEncode_eq (input : Bytes) :
    base64urlEncode input =
      (Sextets.ofBytes input).map urlCharacter ++ List.replicate (padding input) kPadCharacter := by
  have hpad : (if kPadCharacter = plus then minus
      else if kPadCharacter = slash then underscore else kPadCharacter) = kPadCharacter := by decide
  rw [base64urlEncode, base64Encode_eq, List.map_append, List.map_map, List.map_replicate, hpad]
  rfl

end PrometheusCpp
