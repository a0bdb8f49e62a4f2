/-
# PrometheusCpp.Lib.Sextets -- bytes as groups of six bits

What base64 does, without an alphabet and without padding: three bytes are four numbers below 64,
and one or two bytes at the end are two or three, filled up with zero bits. Putting the bits of such
numbers together gives the bytes back (`toBytes_ofBytes`).
-/
import PrometheusCpp.Lib.ByteString

namespace Sextets

open ByteString

def ofBytes : Bytes → List Nat
  | a :: b :: c :: rest =>
    a.toNat / 4 :: (a.toNat % 4 * 16 + b.toNat / 16) :: (b.toNat % 16 * 4 + c.toNat / 64) ::
      c.toNat % 64 :: ofBytes rest
  | [a, b] => [a.toNat / 4, a.toNat % 4 * 16 + b.toNat / 16, b.toNat % 16 * 4]
  | [a] => [a.toNat / 4, a.toNat % 4 * 16]
  | [] => []

/-- A single number at the end is not enough for a byte; filling bits are ignored. -/
def toBytes : List Nat → Option Bytes
  | p :: q :: r :: s :: rest => (toBytes rest).map fun bytes =>
    (p * 4 + q / 16).toUInt8 :: (q % 16 * 16 + r / 4).toUInt8 :: (r % 4 * 64 + s).toUInt8 :: bytes
  | [p, q, r] => some [(p * 4 + q / 16).toUInt8, (q % 16 * 16 + r / 4).toUInt8]
  | [p, q] => some [(p * 4 + q / 16).toUInt8]
  | [_] => none
  | [] => some []

theorem toUInt8_eq {n : Nat} {a : UInt8} (h : n = a.toNat) : n.toUInt8 = a := by
  rw [h]
  exact UInt8.ofNat_toNat

theorem toBytes_ofBytes (bytes : Bytes) : toBytes (ofBytes bytes) = some bytes := by
  induction bytes using ofBytes.induct with
  | case1 a b c rest ih =>
      have hb := b.toNat_lt
      have hc := c.toNat_lt
      rw [ofBytes, toBytes, ih, Option.map_some, toUInt8_eq (a := a) (by omega),
        toUInt8_eq (a := b) (by omega), toUInt8_eq (a := c) (by omega)]
  | case2 a b =>
      have hb := b.toNat_lt
      rw [ofBytes, toBytes, toUInt8_eq (a := a) (by omega), toUInt8_eq (a := b) (by omega)]
  | case3 a => rw [ofBytes, toBytes, toUInt8_eq (a := a) (by omega)]
  | case4 => rfl

theorem lt_of_mem_ofBytes (bytes : Bytes) : ∀ n ∈ ofBytes bytes, n < 64 := by
  induction bytes using ofBytes.induct with
  | case1 a b c rest ih =>
      have ha := a.toNat_lt
      have hb := b.toNat_lt
      have hc := c.toNat_lt
      rw [ofBytes]
      simp only [List.forall_mem_cons]
      exact ⟨by omega, by omega, by omega, by omega, ih⟩
  | case2 a b =>
      have ha := a.toNat_lt
      have hb := b.toNat_lt
      rw [ofBytes]
      simp only [List.forall_mem_cons]
      exact ⟨by omega, by omega, by omega, by simp⟩
  | case3 a =>
      have ha := a.toNat_lt
      rw [ofBytes]
      simp only [List.forall_mem_cons]
      exact ⟨by omega, by omega, by simp⟩
  | case4 => exact fun _ h => absurd h List.not_mem_nil

end Sextets
