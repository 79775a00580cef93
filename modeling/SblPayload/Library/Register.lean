import Mathlib.Tactic.Ring

/-! Division around a register of `size` values, which shows a number modulo its
size: of a number it shows, and of a quotient it is to show. -/

namespace SblPayload.Library.Register

variable {count size divisor : Nat}

theorem split (count size divisor : Nat) :
    count = divisor * (size * (count / size / divisor)) + (size * (count / size % divisor) + count % size) := by
  have wraps := Nat.div_add_mod (count / size) divisor
  calc count = size * (count / size) + count % size := (Nat.div_add_mod count size).symm
    _ = size * (divisor * (count / size / divisor) + count / size % divisor) + count % size := by rw [wraps]
    _ = divisor * (size * (count / size / divisor)) + (size * (count / size % divisor) + count % size) := by ring

theorem div_mod (positive : 0 < divisor) (values : 0 < size) :
    count / divisor % size = (size * (count / size % divisor) + count % size) / divisor := by
  have rest : count % size < size := Nat.mod_lt _ values
  have wraps : count / size % divisor < divisor := Nat.mod_lt _ positive
  have below : size * (count / size % divisor) + count % size < divisor * size := by
    calc size * (count / size % divisor) + count % size < size * (count / size % divisor) + size := Nat.add_lt_add_left rest _
      _ = size * (count / size % divisor + 1) := rfl
      _ ≤ size * divisor := Nat.mul_le_mul_left _ wraps
      _ = divisor * size := Nat.mul_comm _ _
  have quotient : count / divisor =
      size * (count / size / divisor) + (size * (count / size % divisor) + count % size) / divisor := by
    conv_lhs => rw [split count size divisor, Nat.mul_add_div positive]
  rw [quotient, Nat.mul_add_mod, Nat.mod_eq_of_lt (Nat.div_lt_of_lt_mul below)]

/-- Dividing what the register shows gives what it would show of the quotient if, and
only if, it has wrapped a whole number of times the divisor. -/
theorem shown_div_iff (positive : 0 < divisor) (fits : divisor ≤ size) :
    count % size / divisor = count / divisor % size ↔ divisor ∣ count / size := by
  rw [div_mod positive (Nat.lt_of_lt_of_le positive fits), Nat.dvd_iff_mod_eq_zero]
  constructor
  · intro same
    by_contra wrapped
    have once : divisor ≤ size * (count / size % divisor) :=
      Nat.le_trans fits (Nat.le_mul_of_pos_right _ (Nat.pos_of_ne_zero wrapped))
    have more : (divisor + count % size) / divisor ≤ (size * (count / size % divisor) + count % size) / divisor :=
      Nat.div_le_div_right (Nat.add_le_add_right once _)
    rw [Nat.add_div_left _ positive] at more
    omega
  · intro whole
    rw [whole, Nat.mul_zero, Nat.zero_add]

theorem mul_shown_le (count size divisor : Nat) : divisor * (count / divisor % size) ≤ count :=
  Nat.le_trans (Nat.mul_le_mul_left _ (Nat.mod_le _ _)) (Nat.mul_div_le _ _)

theorem split_quotient (count size divisor : Nat) :
    count = divisor * (count / divisor % size) + size * (divisor * (count / divisor / size)) + count % divisor := by
  have quotient := Nat.div_add_mod (count / divisor) size
  calc count = divisor * (count / divisor) + count % divisor := (Nat.div_add_mod count divisor).symm
    _ = divisor * (size * (count / divisor / size) + count / divisor % size) + count % divisor := by rw [quotient]
    _ = divisor * (count / divisor % size) + size * (divisor * (count / divisor / size)) + count % divisor := by ring

/-- When the quotient a register shows may be multiplied by a number that exceeds the
divisor by the size of the register. -/
theorem mul_shown_le_iff (positive : 0 < divisor) (fits : divisor ≤ size) :
    (divisor + size) * (count / divisor % size) ≤ count ↔
      count % (divisor * size) < divisor * (divisor * (count / (divisor * size)) + 1) := by
  have rest : count % divisor < size := Nat.lt_of_lt_of_le (Nat.mod_lt _ positive) fits
  have parts := split_quotient count size divisor
  rw [← Nat.div_div_eq_div_mul, Nat.mul_comm divisor (_ + 1), ← Nat.div_lt_iff_lt_mul positive,
    Nat.mod_mul_right_div_self, Nat.lt_succ_iff, Nat.add_mul]
  generalize count / divisor % size = shown at parts
  generalize divisor * (count / divisor / size) = room at parts
  constructor
  · intro below
    by_contra above
    have more : size * (room + 1) ≤ size * shown := Nat.mul_le_mul_left _ (by omega)
    rw [Nat.mul_succ] at more
    omega
  · intro below
    have less : size * shown ≤ size * room := Nat.mul_le_mul_left _ below
    omega

end SblPayload.Library.Register
