import Mathlib.Data.List.Basic

/-! The column of a VT100 cursor on a line without a right margin. -/

namespace SblPayload.Library

inductive Sequence where
  | ground
  | escape
  | control (parameter : Nat)
deriving DecidableEq

structure Cursor where
  sequence : Sequence
  column : Nat
deriving DecidableEq

namespace Cursor

/-- A backspace and CSI n D move left and stop at column 0. A parameter of 0 stands
for 1, and the other control sequences are not followed. -/
def receive (cursor : Cursor) (char : Char) : Cursor :=
  match cursor.sequence with
  | .ground =>
    if char = '\x08' then { cursor with column := cursor.column - 1 }
    else if char = '\x1b' then { cursor with sequence := .escape }
    else if char.toNat < 32 then cursor
    else { cursor with column := cursor.column + 1 }
  | .escape => { cursor with sequence := if char = '[' then .control 0 else .ground }
  | .control parameter =>
    if char.isDigit then { cursor with sequence := .control (10 * parameter + (char.toNat - '0'.toNat)) }
    else if char = 'D' then ⟨.ground, cursor.column - max 1 parameter⟩
    else { cursor with sequence := .ground }

def display (text : List Char) (cursor : Cursor) : Cursor := text.foldl receive cursor

theorem display_append (first second : List Char) (cursor : Cursor) :
    display (first ++ second) cursor = display second (display first cursor) :=
  List.foldl_append

theorem display_backspaces (count column : Nat) :
    display (List.replicate count '\x08') ⟨.ground, column⟩ = ⟨.ground, column - count⟩ := by
  induction count generalizing column with
  | zero => rfl
  | succ count ih =>
    change display (List.replicate count '\x08') ⟨.ground, column - 1⟩ = _
    rw [ih, Nat.sub_sub, Nat.add_comm]

theorem display_digits {digits : List Char} (all : ∀ char ∈ digits, char.isDigit) (parameter column : Nat) :
    display digits ⟨.control parameter, column⟩ = ⟨.control (Nat.ofDigitChars 10 digits parameter), column⟩ := by
  induction digits generalizing parameter with
  | nil => rfl
  | cons char digits ih =>
    have digit : receive ⟨.control parameter, column⟩ char =
        ⟨.control (10 * parameter + (char.toNat - '0'.toNat)), column⟩ := if_pos (all char List.mem_cons_self)
    rw [display, List.foldl_cons, digit, Nat.ofDigitChars_cons]
    exact ih (fun char member => all char (List.mem_cons_of_mem _ member)) _

theorem display_back (count column : Nat) :
    display ('\x1b' :: '[' :: Nat.toDigits 10 count ++ ['D']) ⟨.ground, column⟩ = ⟨.ground, column - max 1 count⟩ := by
  have digits : ∀ char ∈ Nat.toDigits 10 count, char.isDigit :=
    fun char member => Nat.isDigit_of_mem_toDigits (by omega) (by omega) member
  change display (Nat.toDigits 10 count ++ ['D']) ⟨.control 0, column⟩ = _
  rw [display_append, display_digits digits, Nat.ofDigitChars_ten_toDigits]
  rfl

end Cursor

end SblPayload.Library
