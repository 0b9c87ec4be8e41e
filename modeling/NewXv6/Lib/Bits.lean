import Mathlib.Data.Nat.Bitwise
import Mathlib.Tactic.Ring

/-!
# Bits of a sequence of bytes

`bitsAt f pos n` is the number of the `n` bits at position `pos` of the bytes `f 0`, `f 1`, ..., the most significant bit
of a byte first. A group of bits is read in parts (`bitsAt_add`), and a part inside one byte is a field of that byte
(`bitsAt_byte`).
-/

namespace NewXv6.Lib

/-- The bit at a position. -/
def bitAt (f : Nat → UInt8) (pos : Nat) : Nat := (f (pos / 8)).toNat / 2 ^ (7 - pos % 8) % 2

/-- The bits from a position on. -/
def bitsAt (f : Nat → UInt8) (pos : Nat) : Nat → Nat
  | 0 => 0
  | n + 1 => 2 * bitsAt f pos n + bitAt f (pos + n)

variable {f g : Nat → UInt8} {pos : Nat}

theorem bitsAt_lt (f : Nat → UInt8) (pos n : Nat) : bitsAt f pos n < 2 ^ n := by
  induction n with
  | zero => exact Nat.one_pos
  | succ n ih =>
    have hbit : bitAt f (pos + n) < 2 := Nat.mod_lt _ (by decide)
    rw [pow_succ]
    show 2 * bitsAt f pos n + bitAt f (pos + n) < 2 ^ n * 2
    omega

/-- Bits in two parts. -/
theorem bitsAt_add (f : Nat → UInt8) (pos m n : Nat) :
    bitsAt f pos (m + n) = bitsAt f pos m * 2 ^ n + bitsAt f (pos + m) n := by
  induction n with
  | zero => simp [bitsAt]
  | succ n ih =>
    show 2 * bitsAt f pos (m + n) + bitAt f (pos + (m + n)) =
      bitsAt f pos m * 2 ^ (n + 1) + (2 * bitsAt f (pos + m) n + bitAt f (pos + m + n))
    rw [ih, pow_succ, Nat.add_assoc pos m n]
    ring

/-- Bits inside one byte: `b` bits of it are left. -/
theorem bitsAt_byte {b k : Nat} (hb : pos % 8 + b = 8) (hk : k ≤ b) :
    bitsAt f pos k = (f (pos / 8)).toNat % 2 ^ b / 2 ^ (b - k) := by
  induction k with
  | zero =>
    rw [Nat.sub_zero, Nat.div_eq_of_lt (Nat.mod_lt _ (Nat.two_pow_pos b))]
    rfl
  | succ k ih =>
    have hbyte : (pos + k) / 8 = pos / 8 := by omega
    have hlast : 7 - (pos + k) % 8 = b - (k + 1) := by omega
    show 2 * bitsAt f pos k + bitAt f (pos + k) = _
    unfold bitAt
    rw [ih (by omega), hbyte, hlast]
    -- the field with one bit more
    generalize (f (pos / 8)).toNat = x
    obtain ⟨d, rfl⟩ : ∃ d, b = d + (k + 1) := ⟨b - (k + 1), by omega⟩
    rw [show d + (k + 1) - k = d + 1 by omega, show d + (k + 1) - (k + 1) = d by omega]
    have hbit : x / 2 ^ d % 2 = x % 2 ^ (d + (k + 1)) / 2 ^ d % 2 := by
      rw [pow_add 2 d (k + 1), Nat.mod_mul_right_div_self, pow_succ, Nat.mul_comm (2 ^ k) 2,
        Nat.mod_mul_right_mod]
    rw [hbit, pow_succ, ← Nat.div_div_eq_div_mul]
    omega

end NewXv6.Lib
