import SblPayload.MicroPython.Mphalport

/-! What a delay asks of the service, against the time its caller asks for. -/

namespace SblPayload.Proofs.Delays
open MicroPython

def total {arch : Arch} (requests : List (Word arch)) : Nat := (requests.map BitVec.toNat).sum

/-- What a function adds to the requests made before it. -/
def asked {arch : Arch} (delay : List (Word arch) → List (Word arch)) (requests : List (Word arch)) : Nat :=
  total (delay requests) - total requests

structure Waits (arch : Arch) (ms : Word arch) : Prop where
  exactly : ∀ requests, asked (mpHalDelayMs arch ms) requests = 1000 * ms.toNat
  monotone : ∀ less ≤ ms, ∀ requests, asked (mpHalDelayMs arch less) requests ≤ asked (mpHalDelayMs arch ms) requests
  agrees : ∀ us : Word arch, us.toNat = 1000 * ms.toNat →
    ∀ requests, mpHalDelayMs arch ms requests = mpHalDelayUs arch us requests

/-- A microsecond argument passes through the wider type unchanged. -/
theorem delayUs_appends (arch : Arch) (us : Word arch) (requests : List (Word arch)) :
    mpHalDelayUs arch us requests = requests ++ [us] := by
  have kept : (us.setWidth 64).setWidth arch.bits = us :=
    (BitVec.setWidth_setWidth_of_le us arch.le_bits).trans (BitVec.setWidth_eq us)
  rw [mpHalDelayUs, usleep, kept]

/-- A millisecond delay is a microsecond delay of the wrapped product. -/
theorem delayMs_eq (arch : Arch) (ms : Word arch) : mpHalDelayMs arch ms = mpHalDelayUs arch (ms * 1000) := rfl

theorem asked_us (arch : Arch) (us : Word arch) (requests : List (Word arch)) :
    asked (mpHalDelayUs arch us) requests = us.toNat := by
  rw [asked, delayUs_appends, total, List.map_append, List.sum_append, total]
  simp

theorem product_toNat (arch : Arch) (ms : Word arch) : (ms * 1000).toNat = 1000 * ms.toNat % 2 ^ arch.bits := by
  have thousand : (1000 : Word arch).toNat = 1000 := by
    cases arch with
    | ia32 => rfl
    | x64 => rfl
  rw [BitVec.toNat_mul, thousand, Nat.mul_comm]

theorem asked_ms (arch : Arch) (ms : Word arch) (requests : List (Word arch)) :
    asked (mpHalDelayMs arch ms) requests = 1000 * ms.toNat % 2 ^ arch.bits := by
  rw [delayMs_eq, asked_us, product_toNat]

/-- The time is right as long as the narrow product does not wrap. -/
theorem delay_waits_iff (arch : Arch) (ms : Word arch) : Waits arch ms ↔ 1000 * ms.toNat < 2 ^ arch.bits := by
  constructor
  · intro waits
    have exactly := waits.exactly []
    rw [asked_ms] at exactly
    rw [← exactly]
    exact Nat.mod_lt _ (Nat.two_pow_pos _)
  · intro fits
    refine ⟨?_, ?_, ?_⟩
    · intro requests
      rw [asked_ms, Nat.mod_eq_of_lt fits]
    · intro less below requests
      have scaled : 1000 * less.toNat ≤ 1000 * ms.toNat := Nat.mul_le_mul_left _ (BitVec.le_def.mp below)
      rw [asked_ms, asked_ms, Nat.mod_eq_of_lt fits, Nat.mod_eq_of_lt (Nat.lt_of_le_of_lt scaled fits)]
      exact scaled
    · intro us same requests
      have product : ms * 1000 = us := by
        apply BitVec.eq_of_toNat_eq
        rw [product_toNat, Nat.mod_eq_of_lt fits, same]
      rw [delayMs_eq, product]

/-- Seventy-one minutes and a half, on a machine with 32 bits. -/
theorem long_delay_wraps : 1000 * (4294968 : Word .ia32).toNat < 2 ^ 64 ∧ ¬ Waits .ia32 4294968 := by
  refine ⟨by decide, ?_⟩
  intro waits
  exact absurd (waits.exactly []) (by decide)

end SblPayload.Proofs.Delays
