import Mathlib.Data.BitVec

/-! The two machines the payload is built for, and the arithmetic the firmware
library gives it. -/

namespace SblPayload.MicroPython

inductive Arch where
  | ia32
  | x64
deriving DecidableEq

namespace Arch

/-- Width of a pointer, of `size_t`, `mp_int_t` and `mp_uint_t`. -/
def bits : Arch → Nat
  | .ia32 => 32
  | .x64 => 64

theorem bits_cases (arch : Arch) : arch.bits = 32 ∨ arch.bits = 64 := by
  cases arch with
  | ia32 => exact Or.inl rfl
  | x64 => exact Or.inr rfl

theorem bits_le (arch : Arch) : 32 ≤ arch.bits := by
  cases arch with
  | ia32 => exact Nat.le_refl _
  | x64 => exact Nat.le_add_right 32 32

theorem le_bits (arch : Arch) : arch.bits ≤ 64 := by
  cases arch with
  | ia32 => exact Nat.le_add_right 32 32
  | x64 => exact Nat.le_refl _

end Arch

/-- `mp_int_t` and `mp_uint_t`: two readings of one machine word. -/
abbrev Word (arch : Arch) := BitVec arch.bits

def divU64x32 (dividend : BitVec 64) (divisor : BitVec 32) : Option (BitVec 64) :=
  if divisor = 0 then none else some (dividend / divisor.setWidth 64)

theorem divU64x32_toNat {dividend quotient : BitVec 64} {divisor : BitVec 32}
    (divided : divU64x32 dividend divisor = some quotient) : quotient.toNat = dividend.toNat / divisor.toNat := by
  unfold divU64x32 at divided
  split at divided
  · cases divided
  · have fits : divisor.toNat < 2 ^ 64 := by have := divisor.isLt; omega
    rw [← Option.some.inj divided, BitVec.toNat_udiv, BitVec.toNat_setWidth, Nat.mod_eq_of_lt fits]

theorem divU64x32_isSome {dividend : BitVec 64} {divisor : BitVec 32} (nonzero : divisor.toNat ≠ 0) :
    ∃ quotient, divU64x32 dividend divisor = some quotient ∧ quotient.toNat = dividend.toNat / divisor.toNat := by
  have other : divisor ≠ 0 := by
    intro zero
    rw [zero] at nonzero
    exact nonzero rfl
  have divided : divU64x32 dividend divisor = some (dividend / divisor.setWidth 64) := if_neg other
  exact ⟨_, divided, divU64x32_toNat divided⟩

end SblPayload.MicroPython
