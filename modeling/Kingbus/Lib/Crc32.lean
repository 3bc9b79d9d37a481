import Mathlib.Data.Nat.Bitwise
import Kingbus.Lib.Bytes

/-! # CRC-32 with the IEEE polynomial

The bit-serial form of the reflected CRC that `crc32.ChecksumIEEE` computes with
tables: the register starts as all ones, each byte is xored into its low end and
shifted out bit by bit, and the final register is inverted. -/

namespace Crc32

/-- The IEEE polynomial, reflected. -/
def polynomial : Nat := 0xEDB88320

/-- Shift out one bit. -/
def bitStep (c : Nat) : Nat := if c % 2 = 1 then (c / 2) ^^^ polynomial else c / 2

/-- Shift out `k` bits. -/
def bitSteps : Nat → Nat → Nat
  | 0, c => c
  | k + 1, c => bitSteps k (bitStep c)

/-- Feed one byte to the register. -/
def byteStep (c : Nat) (b : UInt8) : Nat := bitSteps 8 (c ^^^ b.toNat)

/-- `crc32.ChecksumIEEE`. -/
def checksumIEEE (d : Bytes) : Nat := d.foldl byteStep 0xFFFFFFFF ^^^ 0xFFFFFFFF

theorem bitStep_lt {c : Nat} (h : c < 2 ^ 32) : bitStep c < 2 ^ 32 := by
  unfold bitStep
  split
  · exact Nat.xor_lt_two_pow (by omega) (by decide)
  · omega

theorem bitSteps_lt : ∀ (k : Nat) {c : Nat}, c < 2 ^ 32 → bitSteps k c < 2 ^ 32
  | 0, _, h => h
  | k + 1, _, h => bitSteps_lt k (bitStep_lt h)

theorem byteStep_lt {c : Nat} (b : UInt8) (h : c < 2 ^ 32) : byteStep c b < 2 ^ 32 := by
  have hb : b.toNat < 2 ^ 32 := Nat.lt_trans b.toNat_lt (by decide)
  exact bitSteps_lt 8 (Nat.xor_lt_two_pow h hb)

theorem foldl_byteStep_lt : ∀ (d : Bytes) {c : Nat}, c < 2 ^ 32 → d.foldl byteStep c < 2 ^ 32
  | [], _, h => h
  | b :: t, _, h => foldl_byteStep_lt t (byteStep_lt b h)

theorem checksumIEEE_lt (d : Bytes) : checksumIEEE d < 2 ^ 32 :=
  Nat.xor_lt_two_pow (foldl_byteStep_lt d (by decide)) (by decide)

/-- The check value of the CRC-32 of `"123456789"`. -/
example : checksumIEEE [49, 50, 51, 52, 53, 54, 55, 56, 57] = 0xCBF43926 := by decide +kernel

end Crc32
