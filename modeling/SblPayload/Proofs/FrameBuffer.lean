import SblPayload.Library.Register
import SblPayload.MicroPython.Modpyb

/-! What `pyb.fb_blt` tells `DrawFrameBuffer` about its buffer. The divisor and the
column count are cut to 32 bits apart from each other, one before and one after
the doubling. -/

namespace SblPayload.Proofs.FrameBuffer
open Library MicroPython

variable {arch : Arch}

def divisor (col : Word arch) : BitVec 32 := (col * 2).setWidth 32

/-- An exception is raised, or the division is one and no more data is described than
there is. -/
def Safe (buf icol : MpObj arch) : Prop :=
  (∃ error, pybFbBlt buf icol = .error (.raised error)) ∨
    ∃ info col draw, mpGetBufferRaise buf = .ok info ∧ mpObjGetInt icol = .ok col ∧ pybFbBlt buf icol = .ok draw ∧
      divisor col ≠ 0 ∧ 2 * draw.first.toNat * draw.second.toNat ≤ info.len.toNat

/-- The low 32 bits of a column count are positive, or they are negative and the rows
are lost with the upper half of the quotient. -/
def Fits (len col : Nat) : Prop :=
  0 < col ∧ col < 2 ^ 31 ∨
    2 ^ 31 < col ∧ len % ((2 * col - 2 ^ 32) * 2 ^ 32) <
      (2 * col - 2 ^ 32) * ((2 * col - 2 ^ 32) * (len / ((2 * col - 2 ^ 32) * 2 ^ 32)) + 1)

def IsWord (arch : Arch) (value : Int) : Prop := -2 ^ (arch.bits - 1) ≤ value ∧ value < 2 ^ (arch.bits - 1)

theorem low_toNat (arch : Arch) (value : Int) :
    ((BitVec.ofInt arch.bits value).setWidth 32).toNat = (value % 2 ^ 32).toNat := by
  rw [BitVec.toNat_setWidth, BitVec.toNat_ofInt]
  rcases arch.bits_cases with same | same
  · rw [same]
    omega
  · rw [same]
    omega

theorem divisor_toNat (col : Word arch) : (divisor col).toNat = 2 * (col.setWidth 32).toNat % 2 ^ 32 := by
  have two : (2 : Word arch).setWidth 32 = 2 := by
    cases arch with
    | ia32 => rfl
    | x64 => rfl
  rw [divisor, BitVec.setWidth_mul _ _ arch.bits_le, two, BitVec.toNat_mul, Nat.mul_comm]
  rfl

theorem fbBlt_eq {buf icol : MpObj arch} {info : MpBufferInfo arch} {col : Word arch}
    (buffered : mpGetBufferRaise buf = .ok info) (counted : mpObjGetInt icol = .ok col) (divides : divisor col ≠ 0) :
    pybFbBlt buf icol =
      .ok ⟨.ofNat 32 (info.len.toNat / (divisor col).toNat), col.setWidth 32, info.buf⟩ := by
  have nonzero : (divisor col).toNat ≠ 0 := fun zero => divides (BitVec.eq_of_toNat_eq zero)
  have below : info.len.toNat < 2 ^ 64 :=
    Nat.lt_of_lt_of_le info.len.isLt (Nat.pow_le_pow_right (by omega) arch.le_bits)
  obtain ⟨quotient, divided, same⟩ := @divU64x32_isSome (info.len.setWidth 64) _ nonzero
  rw [BitVec.toNat_setWidth, Nat.mod_eq_of_lt below] at same
  rw [divisor] at divided
  unfold pybFbBlt
  rw [buffered, counted]
  dsimp only
  rw [divided]
  dsimp only
  rw [BitVec.setWidth_setWidth_of_le _ arch.bits_le, ← BitVec.ofNat_toNat, same]

theorem fbBlt_zero {buf icol : MpObj arch} {info : MpBufferInfo arch} {col : Word arch}
    (buffered : mpGetBufferRaise buf = .ok info) (counted : mpObjGetInt icol = .ok col) (zero : divisor col = 0) :
    pybFbBlt buf icol = .error .dividedByZero := by
  rw [divisor] at zero
  unfold pybFbBlt
  rw [buffered, counted]
  dsimp only
  rw [zero]
  rfl

theorem fbBlt_raised {buf icol : MpObj arch}
    (refused : ∀ info col, mpGetBufferRaise buf = .ok info → mpObjGetInt icol ≠ .ok col) :
    ∃ error, pybFbBlt buf icol = .error (.raised error) := by
  unfold pybFbBlt
  cases buffered : mpGetBufferRaise buf with
  | error error => exact ⟨error, rfl⟩
  | ok info =>
    cases counted : mpObjGetInt icol with
    | error error => exact ⟨error, rfl⟩
    | ok col => exact absurd counted (refused info col buffered)

theorem fits_iff {len col : Nat} (low : col < 2 ^ 32) :
    2 * col % 2 ^ 32 ≠ 0 ∧ 2 * (len / (2 * col % 2 ^ 32) % 2 ^ 32) * col ≤ len ↔ Fits len col := by
  unfold Fits
  rcases Nat.lt_trichotomy col (2 ^ 31) with below | same | above
  · have whole : 2 * col % 2 ^ 32 = 2 * col := Nat.mod_eq_of_lt (by omega)
    have room := Register.mul_shown_le len (2 ^ 32) (2 * col)
    rw [whole, Nat.mul_right_comm]
    omega
  · subst same
    omega
  · have cut : 2 * col % 2 ^ 32 = 2 * col - 2 ^ 32 := by omega
    have room := @Register.mul_shown_le_iff len (2 ^ 32) (2 * col - 2 ^ 32) (by omega) (by omega)
    rw [Nat.sub_add_cancel (by omega)] at room
    rw [cut, Nat.mul_right_comm, room]
    constructor
    · rintro ⟨_, within⟩
      exact Or.inr ⟨above, within⟩
    · rintro (⟨_, below⟩ | ⟨_, within⟩)
      · omega
      · exact ⟨by omega, within⟩

theorem safe_iff {buf icol : MpObj arch} {info : MpBufferInfo arch} {col : Word arch}
    (buffered : mpGetBufferRaise buf = .ok info) (counted : mpObjGetInt icol = .ok col) :
    Safe buf icol ↔ Fits info.len.toNat (col.setWidth 32).toNat := by
  rw [← fits_iff (col.setWidth 32).isLt, ← divisor_toNat]
  by_cases zero : divisor col = 0
  · have stopped := fbBlt_zero buffered counted zero
    constructor
    · rintro (⟨error, raised⟩ | ⟨_, _, _, _, _, returned, _⟩)
      · rw [stopped] at raised
        cases raised
      · rw [stopped] at returned
        cases returned
    · intro fits
      exact absurd (congrArg BitVec.toNat zero) fits.1
  · have called := fbBlt_eq buffered counted zero
    have nonzero : (divisor col).toNat ≠ 0 := fun same => zero (BitVec.eq_of_toNat_eq same)
    constructor
    · rintro (⟨error, raised⟩ | ⟨_, _, draw, sameInfo, sameCol, returned, _, within⟩)
      · rw [called] at raised
        cases raised
      · cases buffered.symm.trans sameInfo
        cases called.symm.trans returned
        exact ⟨nonzero, by rwa [BitVec.toNat_ofNat] at within⟩
    · rintro ⟨_, within⟩
      refine Or.inr ⟨info, col, _, buffered, counted, called, zero, ?_⟩
      rwa [BitVec.toNat_ofNat]

theorem getInt_ok_iff {object : MpObj arch} {col : Word arch} :
    mpObjGetInt object = .ok col ↔ ∃ value, object.int = some value ∧ IsWord arch value ∧ col = .ofInt arch.bits value := by
  unfold mpObjGetInt IsWord
  cases held : object.int with
  | none => simp
  | some value =>
    by_cases accepted : -2 ^ (arch.bits - 1) ≤ value ∧ value < 2 ^ (arch.bits - 1)
    · simp [accepted, eq_comm]
    · simp [accepted]

theorem getBuffer_ok_iff {object : MpObj arch} {info : MpBufferInfo arch} :
    mpGetBufferRaise object = .ok info ↔ object.buffer = some info := by
  unfold mpGetBufferRaise
  cases object.buffer <;> simp

/-- Exactly when `pyb.fb_blt` describes no more than it was given. -/
theorem fb_blt_safe_iff (buf icol : MpObj arch) :
    Safe buf icol ↔ ∀ info value, buf.buffer = some info → icol.int = some value → IsWord arch value →
      Fits info.len.toNat (value % 2 ^ 32).toNat := by
  constructor
  · intro safe info value buffered held word
    have counted : mpObjGetInt icol = .ok (.ofInt arch.bits value) := getInt_ok_iff.mpr ⟨value, held, word, rfl⟩
    rw [← low_toNat arch]
    exact (safe_iff (getBuffer_ok_iff.mpr buffered) counted).mp safe
  · intro fits
    by_cases accepted : ∃ info col, mpGetBufferRaise buf = .ok info ∧ mpObjGetInt icol = .ok col
    · obtain ⟨info, col, buffered, counted⟩ := accepted
      obtain ⟨value, held, word, rfl⟩ := getInt_ok_iff.mp counted
      rw [safe_iff buffered counted, low_toNat]
      exact fits info value (getBuffer_ok_iff.mp buffered) held word
    · exact Or.inl (fbBlt_raised fun info col buffered counted => accepted ⟨info, col, buffered, counted⟩)

def eightBytes : MpObj .x64 := ⟨some ⟨4096, 8⟩, none, none⟩

def noColumns : MpObj .x64 := ⟨none, some 0, none⟩

theorem divided_by_zero : ¬ Safe eightBytes noColumns := by
  have stopped : pybFbBlt eightBytes noColumns = .error .dividedByZero := rfl
  intro safe
  rw [Safe, stopped] at safe
  rcases safe with ⟨error, raised⟩ | ⟨_, _, _, _, _, returned, _⟩
  · cases raised
  · cases returned

end SblPayload.Proofs.FrameBuffer
