import SblPayload.Library.Terminal
import SblPayload.MicroPython.Mphalport

/-! The cursor command. Its array holds a number of three digits. -/

namespace SblPayload.Proofs.CursorBack
open Library MicroPython

/-- All stores and reads stay inside, and the bytes move the cursor back by exactly
`pos` columns. -/
structure MovesBack (pos : BitVec 32) (done : Transmission) : Prop where
  stores : ∀ index ∈ done.stores, index < commandSize
  reads : done.sourceRead ≤ done.sourceSize
  bytes : done.sent =
    if pos ≤ 4 then List.replicate pos.toNat '\x08' else '\x1b' :: '[' :: Nat.toDigits 10 pos.toNat ++ ['D']
  column : ∀ column, Cursor.display done.sent ⟨.ground, column⟩ = ⟨.ground, column - pos.toNat⟩

theorem small_iff {pos : BitVec 32} : pos ≤ 4 ↔ pos.toNat ≤ 4 := BitVec.le_def

theorem backspaces_sent {count : Nat} (small : count ≤ 4) :
    (List.range count).map (fun index => (backspaces[index]?).getD (Char.ofNat 0)) = List.replicate count '\x08' := by
  rw [List.eq_replicate_iff]
  constructor
  · rw [List.length_map, List.length_range]
  · intro char member
    obtain ⟨index, inside, rfl⟩ := List.mem_map.mp member
    have below : index < 4 := Nat.lt_of_lt_of_le (List.mem_range.mp inside) small
    have backspace : backspaces[index]? = some '\x08' := List.getElem?_replicate_of_lt below
    rw [backspace]
    rfl

theorem moves_small (stack : Nat → Char) {pos : BitVec 32} (small : pos ≤ 4) :
    MovesBack pos (mpHalMoveCursorBack stack pos) := by
  have count := small_iff.mp small
  have sent := backspaces_sent count
  rw [mpHalMoveCursorBack, if_pos small]
  constructor
  · exact fun index member => absurd member List.not_mem_nil
  · exact Nat.le_succ_of_le count
  · exact sent.trans (if_pos small).symm
  · intro column
    change Cursor.display ((List.range pos.toNat).map _) _ = _
    rw [sent]
    exact Cursor.display_backspaces _ _

def command (pos : BitVec 32) : Text := '\x1b' :: '[' :: decimal pos

theorem command_fits {pos : BitVec 32} : (command pos).length < commandSize ↔ pos.toNat < 1000 := by
  have digits : (decimal pos).length ≤ 3 ↔ pos.toNat < 10 ^ 3 := Nat.length_toDigits_le_iff (by omega) (by omega)
  rw [command, List.length_cons, List.length_cons, commandSize]
  omega

theorem long_stores (stack : Nat → Char) {pos : BitVec 32} (long : ¬ pos ≤ 4) :
    (mpHalMoveCursorBack stack pos).stores =
      List.range (min 5 (command pos).length + 1) ++ [(command pos).length] := by
  rw [mpHalMoveCursorBack, if_neg long]
  change (List.range ((command pos).take 5 ++ [Char.ofNat 0]).length) ++ _ = _
  rw [List.length_append, List.length_take]
  rfl

theorem snprintf_fits (memory : Nat → Char) {size : Nat} {text : Text} (fits : text.length < size) :
    snprintf memory size text = (fun index => ((text ++ [Char.ofNat 0])[index]?).getD (memory index),
      List.range (text.length + 1), text.length) := by
  have whole : text.take (size - 1) = text := List.take_of_length_le (by omega)
  rw [snprintf, if_neg (by omega), whole, List.length_append]
  rfl

theorem over_nul (memory : Nat → Char) (text : Text) (char : Char) :
    (List.range (text.length + 1)).map
        (storeAt (fun index => ((text ++ [Char.ofNat 0])[index]?).getD (memory index)) text.length char) =
      text ++ [char] := by
  rw [List.range_succ, List.map_append, List.map_singleton, storeAt, if_pos rfl]
  congr 1
  apply List.ext_getElem
  · rw [List.length_map, List.length_range]
  · intro index _ inside
    rw [List.getElem_map, List.getElem_range, storeAt, if_neg (Nat.ne_of_lt inside), List.getElem?_append_left inside,
      List.getElem?_eq_getElem inside]
    rfl

theorem long_sent (stack : Nat → Char) {pos : BitVec 32} (long : ¬ pos ≤ 4) (fits : (command pos).length < commandSize) :
    mpHalMoveCursorBack stack pos =
      ⟨List.range ((command pos).length + 1) ++ [(command pos).length], commandSize, (command pos).length + 1,
        command pos ++ ['D']⟩ := by
  have written := snprintf_fits stack fits
  rw [command] at written
  rw [mpHalMoveCursorBack, if_neg long, written, ← over_nul stack (command pos)]
  rfl

theorem moves_long (stack : Nat → Char) {pos : BitVec 32} (long : ¬ pos ≤ 4) (fits : (command pos).length < commandSize) :
    MovesBack pos (mpHalMoveCursorBack stack pos) := by
  have count : 4 < pos.toNat := Nat.lt_of_not_le (mt small_iff.mpr long)
  rw [long_sent stack long fits]
  constructor
  · intro index member
    rcases List.mem_append.mp member with early | last
    · exact Nat.lt_of_lt_of_le (List.mem_range.mp early) fits
    · rw [List.mem_singleton.mp last]
      exact fits
  · exact fits
  · exact (if_neg long).symm
  · intro column
    have back := Cursor.display_back pos.toNat column
    rwa [Nat.max_eq_right (by omega)] at back

/-- The cursor moves back exactly, and inside the array, for numbers of up to three
digits. -/
theorem moves_back_iff (stack : Nat → Char) (pos : BitVec 32) :
    MovesBack pos (mpHalMoveCursorBack stack pos) ↔ pos.toNat < 1000 := by
  by_cases small : pos ≤ 4
  · have count := small_iff.mp small
    exact ⟨fun _ => by omega, fun _ => moves_small stack small⟩
  · rw [← command_fits]
    constructor
    · intro moves
      apply moves.stores
      rw [long_stores stack small]
      exact List.mem_append_right _ (List.mem_singleton_self _)
    · exact moves_long stack small

def blank : Nat → Char := fun _ => ' '

theorem letter_beyond_array : ¬ MovesBack 1000 (mpHalMoveCursorBack blank 1000) := by
  intro moves
  have stored : 6 ∈ (mpHalMoveCursorBack blank 1000).stores := by
    rw [long_stores blank (by decide)]
    decide
  exact absurd (moves.stores 6 stored) (by decide)

end SblPayload.Proofs.CursorBack
