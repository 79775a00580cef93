import SblPayload.Library.CallStack
import SblPayload.Library.PythonText
import SblPayload.MicroPython.Platform

/-! The functions the interpreter expects of its port: jumps, delays, ticks, the
cursor. -/

namespace SblPayload.MicroPython
open Library

section Jumps

abbrev JumpBuf := Nat

/-- `SetJump` records the activation that calls it: here that of `setjmp`, which
then returns. -/
def setjmp (jumpBuf : JumpBuf) (calls : CallStack JumpBuf) : Option (CallStack JumpBuf) :=
  (calls.enter.save jumpBuf).leave

/-- `LongJump` goes back into the activation that called `SetJump`, which returns
from there. -/
def longjmp (jumpBuf : JumpBuf) (calls : CallStack JumpBuf) : Option (CallStack JumpBuf) :=
  (calls.enter.jump jumpBuf).bind CallStack.leave

inductive CallEvent where
  | call
  | ret
  | setjmp (jumpBuf : JumpBuf)
  | longjmp (jumpBuf : JumpBuf) (value : Nat)
deriving DecidableEq

structure Machine where
  calls : CallStack JumpBuf
  callers : JumpBuf → Option Nat

/-- A step of a program with the given functions; none when control would go to an
activation that has ended. -/
def stepWith (setjmp longjmp : JumpBuf → CallStack JumpBuf → Option (CallStack JumpBuf)) (machine : Machine) :
    CallEvent → Option Machine
  | .call => some { machine with calls := machine.calls.enter }
  | .ret => machine.calls.leave.map fun calls => { machine with calls }
  | .setjmp jumpBuf => (setjmp jumpBuf machine.calls).map fun calls =>
    ⟨calls, fun other => if other = jumpBuf then machine.calls.stack.head? else machine.callers other⟩
  | .longjmp jumpBuf _ => (longjmp jumpBuf machine.calls).map fun calls => { machine with calls }

def step : Machine → CallEvent → Option Machine := stepWith setjmp longjmp

/-- The macros the header keeps in a comment have no activation of their own. -/
def macroStep : Machine → CallEvent → Option Machine :=
  stepWith (fun jumpBuf calls => some (calls.save jumpBuf)) (fun jumpBuf calls => calls.jump jumpBuf)

end Jumps

section Delays

/-- The service is asked through `requests`, one entry a call of `MicroSecondDelay`.
Its parameter is a `UINTN`, which cuts the `useconds_t`. -/
def usleep (arch : Arch) (us : BitVec 64) (requests : List (Word arch)) : BitVec 32 × List (Word arch) :=
  (0, requests ++ [us.setWidth arch.bits])

/-- The product is a `mp_uint_t`; it is widened when it is passed on. -/
def mpHalDelayMs (arch : Arch) (ms : Word arch) (requests : List (Word arch)) : List (Word arch) :=
  (usleep arch ((ms * 1000).setWidth 64) requests).2

def mpHalDelayUs (arch : Arch) (us : Word arch) (requests : List (Word arch)) : List (Word arch) :=
  (usleep arch (us.setWidth 64) requests).2

end Delays

section Ticks

/-- Bits 15:8 of MSR 0xCE, with a default for machines that do not have it. -/
def tscRatio (msr : BitVec 64) : BitVec 8 :=
  let ratio := (msr >>> 8).setWidth 8
  if ratio = 0 then 8 else ratio

/-- The ticks in microseconds. The quotient is returned as a machine word. -/
def mpHalTicksUs (arch : Arch) (msr tsc : BitVec 64) : Option (Word arch) :=
  (divU64x32 tsc ((tscRatio msr).setWidth 32 * 100)).map fun quotient => quotient.setWidth arch.bits

def mpHalTicksMs (arch : Arch) (msr tsc : BitVec 64) : Option (Word arch) := do
  let us ← mpHalTicksUs arch msr tsc
  let quotient ← divU64x32 (us.setWidth 64) 1000
  return quotient.setWidth arch.bits

end Ticks

section Cursor

def decimal (value : BitVec 32) : Text := Nat.toDigits 10 value.toNat

/-- What a function does to memory and to the console: the indices it stores to in
its local array, the bytes it sends, and the source they are taken from, by its
size and the number of bytes read. -/
structure Transmission where
  stores : List Nat
  sourceSize : Nat
  sourceRead : Nat
  sent : Text
deriving DecidableEq

def storeAt (memory : Nat → Char) (index : Nat) (char : Char) : Nat → Char :=
  fun other => if other = index then char else memory other

/-- `snprintf`: at most `size - 1` characters and a NUL are stored from index 0, and
the length of the whole text is returned. -/
def snprintf (memory : Nat → Char) (size : Nat) (text : Text) : (Nat → Char) × List Nat × Nat :=
  let stored := if size = 0 then [] else text.take (size - 1) ++ [Char.ofNat 0]
  (fun index => (stored[index]?).getD (memory index), List.range stored.length, text.length)

def backspaces : Text := ['\x08', '\x08', '\x08', '\x08']

def commandSize : Nat := 6

/-- `stack` is what the memory from the first element of the local array on holds
when the function is entered. -/
def mpHalMoveCursorBack (stack : Nat → Char) (pos : BitVec 32) : Transmission :=
  if pos ≤ 4 then
    -- a string literal ends with a NUL
    ⟨[], backspaces.length + 1, pos.toNat, (List.range pos.toNat).map fun index =>
      (backspaces[index]?).getD (Char.ofNat 0)⟩
  else
    let (memory, stores, n) := snprintf stack commandSize ('\x1b' :: '[' :: decimal pos)
    if n > 0 then
      let memory := storeAt memory n 'D'
      ⟨stores ++ [n], commandSize, n + 1, (List.range (n + 1)).map memory⟩
    else ⟨stores, commandSize, 0, []⟩

end Cursor

end SblPayload.MicroPython
