import SblPayload.Library.Register
import SblPayload.MicroPython.Mphalport

/-! The ticks against the exact counts. The millisecond tick divides a microsecond
tick that has already been cut to a machine word. -/

namespace SblPayload.Proofs.Ticks
open Library MicroPython

def ratio (msr : BitVec 64) : Nat :=
  if msr.toNat / 256 % 256 = 0 then 8 else msr.toNat / 256 % 256

def exactUs (msr tsc : BitVec 64) : Nat := tsc.toNat / (100 * ratio msr)

def exactMs (msr tsc : BitVec 64) : Nat := tsc.toNat / (100000 * ratio msr)

structure Exact (arch : Arch) (msr tsc : BitVec 64) : Prop where
  us : mpHalTicksUs arch msr tsc = some (.ofNat arch.bits (exactUs msr tsc))
  ms : mpHalTicksMs arch msr tsc = some (.ofNat arch.bits (exactMs msr tsc))

/-- Two readings of the counter have exact ticks, with the exact difference. -/
structure Faithful (arch : Arch) (msr first second : BitVec 64) : Prop where
  exactFirst : Exact arch msr first
  exactSecond : Exact arch msr second
  elapsed : first ≤ second → ∀ earlier later, mpHalTicksMs arch msr first = some earlier →
    mpHalTicksMs arch msr second = some later →
    later - earlier = .ofNat arch.bits (exactMs msr second - exactMs msr first)

/-- The microsecond tick has wrapped a whole number of times a thousand. -/
def WrapsWhole (arch : Arch) (msr tsc : BitVec 64) : Prop :=
  1000 ∣ exactUs msr tsc / 2 ^ arch.bits

theorem ratio_bounds (msr : BitVec 64) : 0 < ratio msr ∧ ratio msr < 256 := by
  unfold ratio
  split <;> omega

theorem tscRatio_toNat (msr : BitVec 64) : (tscRatio msr).toNat = ratio msr := by
  have byte : ((msr >>> 8).setWidth 8).toNat = msr.toNat / 256 % 256 := by
    rw [BitVec.toNat_setWidth, BitVec.toNat_ushiftRight, Nat.shiftRight_eq_div_pow]
  have zero : (msr >>> 8).setWidth 8 = 0 ↔ msr.toNat / 256 % 256 = 0 := by
    rw [← byte]
    exact BitVec.toNat_inj.symm
  unfold tscRatio ratio
  by_cases none : msr.toNat / 256 % 256 = 0
  · rw [if_pos none]
    exact congrArg BitVec.toNat (if_pos (zero.mpr none))
  · rw [if_neg none, ← byte]
    exact congrArg BitVec.toNat (if_neg (mt zero.mp none))

theorem usDivisor_toNat (msr : BitVec 64) : ((tscRatio msr).setWidth 32 * 100).toNat = 100 * ratio msr := by
  have := ratio_bounds msr
  rw [BitVec.toNat_mul, BitVec.toNat_setWidth, tscRatio_toNat]
  change ratio msr % 2 ^ 32 * 100 % 2 ^ 32 = _
  omega

theorem us_exact (arch : Arch) (msr tsc : BitVec 64) :
    mpHalTicksUs arch msr tsc = some (.ofNat arch.bits (exactUs msr tsc)) := by
  have positive := (ratio_bounds msr).1
  have nonzero : ((tscRatio msr).setWidth 32 * 100).toNat ≠ 0 := by rw [usDivisor_toNat]; omega
  obtain ⟨quotient, divided, same⟩ := @divU64x32_isSome tsc _ nonzero
  rw [mpHalTicksUs, divided, Option.map_some, ← BitVec.ofNat_toNat, same, usDivisor_toNat, exactUs]

/-- The millisecond tick is made of what the microsecond tick shows. -/
theorem ms_some (arch : Arch) (msr tsc : BitVec 64) :
    mpHalTicksMs arch msr tsc = some (.ofNat arch.bits (exactUs msr tsc % 2 ^ arch.bits / 1000)) := by
  have width : (2 : Nat) ^ arch.bits ≤ 2 ^ 64 := by
    rcases arch.bits_cases with same | same <;> simp [same]
  have shown : exactUs msr tsc % 2 ^ arch.bits < 2 ^ arch.bits := Nat.mod_lt _ (Nat.two_pow_pos _)
  have nonzero : (1000 : BitVec 32).toNat ≠ 0 := by decide
  obtain ⟨quotient, divided, same⟩ :=
    @divU64x32_isSome (BitVec.setWidth 64 (.ofNat arch.bits (exactUs msr tsc))) _ nonzero
  rw [mpHalTicksMs, us_exact, Option.bind_eq_bind, Option.bind_some, divided, Option.bind_eq_bind, Option.bind_some,
    ← BitVec.ofNat_toNat, same, BitVec.toNat_setWidth, BitVec.toNat_ofNat, Nat.mod_eq_of_lt (Nat.lt_of_lt_of_le shown width)]
  rfl

theorem exactMs_eq (msr tsc : BitVec 64) : exactMs msr tsc = exactUs msr tsc / 1000 := by
  rw [exactMs, exactUs, Nat.div_div_eq_div_mul]
  congr 1
  omega

theorem exact_iff (arch : Arch) (msr tsc : BitVec 64) : Exact arch msr tsc ↔ WrapsWhole arch msr tsc := by
  have fits : 1000 ≤ 2 ^ arch.bits := by
    rcases arch.bits_cases with same | same <;> rw [same] <;> omega
  have below : exactUs msr tsc % 2 ^ arch.bits / 1000 < 2 ^ arch.bits :=
    Nat.lt_of_le_of_lt (Nat.div_le_self _ _) (Nat.mod_lt _ (Nat.two_pow_pos _))
  have same : mpHalTicksMs arch msr tsc = some (.ofNat arch.bits (exactMs msr tsc)) ↔
      exactUs msr tsc % 2 ^ arch.bits / 1000 = exactUs msr tsc / 1000 % 2 ^ arch.bits := by
    rw [ms_some, exactMs_eq, Option.some.injEq, ← BitVec.toNat_inj, BitVec.toNat_ofNat, BitVec.toNat_ofNat,
      Nat.mod_eq_of_lt below]
  rw [WrapsWhole, ← Register.shown_div_iff (by omega) fits, ← same]
  exact ⟨fun exact => exact.ms, fun ms => ⟨us_exact arch msr tsc, ms⟩⟩

theorem wrapsWhole_x64 (msr tsc : BitVec 64) : WrapsWhole .x64 msr tsc := by
  have below : exactUs msr tsc < 2 ^ 64 := Nat.lt_of_le_of_lt (Nat.div_le_self _ _) tsc.isLt
  rw [WrapsWhole, Arch.bits, Nat.div_eq_of_lt below]
  exact Nat.dvd_zero _

/-- Exact ticks have the exact difference, also over a wrap. -/
theorem elapsed_exact {arch : Arch} {msr first second : BitVec 64} (exactFirst : Exact arch msr first)
    (exactSecond : Exact arch msr second) (ordered : first ≤ second) {earlier later : Word arch}
    (readFirst : mpHalTicksMs arch msr first = some earlier) (readSecond : mpHalTicksMs arch msr second = some later) :
    later - earlier = .ofNat arch.bits (exactMs msr second - exactMs msr first) := by
  have counted : exactMs msr first ≤ exactMs msr second := Nat.div_le_div_right (BitVec.le_def.mp ordered)
  rw [exactFirst.ms, Option.some.injEq] at readFirst
  rw [exactSecond.ms, Option.some.injEq] at readSecond
  rw [← readFirst, ← readSecond, sub_eq_iff_eq_add, ← BitVec.ofNat_add, Nat.sub_add_cancel counted]

theorem ticks_faithful_iff (arch : Arch) (msr first second : BitVec 64) :
    Faithful arch msr first second ↔ WrapsWhole arch msr first ∧ WrapsWhole arch msr second := by
  rw [← exact_iff, ← exact_iff]
  constructor
  · intro faithful
    exact ⟨faithful.exactFirst, faithful.exactSecond⟩
  · rintro ⟨exactFirst, exactSecond⟩
    exact ⟨exactFirst, exactSecond, fun ordered _ _ => elapsed_exact exactFirst exactSecond ordered⟩

/-- A machine word of 32 bits, right after its microsecond tick has wrapped. -/
theorem tick_after_wrap : ¬ Faithful .ia32 0 0 (2 ^ 32 * 800) := by
  intro faithful
  exact absurd faithful.exactSecond.ms (by decide)

end SblPayload.Proofs.Ticks
