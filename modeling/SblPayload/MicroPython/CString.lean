import Mathlib.Data.List.TakeWhile
import SblPayload.MicroPython.Platform

/-! The C library functions the interpreter is given, over the firmware library. -/

namespace SblPayload.MicroPython

abbrev Byte := BitVec 8

/-- The characters before the terminating NUL. -/
structure CString where
  chars : List Byte
  terminated : 0 ∉ chars

theorem nul_not_taken (array : List Byte) : 0 ∉ array.takeWhile (· ≠ 0) := by
  intro nul
  have visible := List.mem_takeWhile_imp nul
  exact of_decide_eq_true visible rfl

def CString.ofArray (array : List Byte) : CString := ⟨array.takeWhile (· ≠ 0), nul_not_taken array⟩

abbrev Bytes (arch : Arch) := Word arch → Byte

/-- The routines of `BaseLib` and `BaseMemoryLib` the shim calls. A position in a
string stands for a pointer into it, none for `NULL`. -/
structure BaseLib (arch : Arch) where
  asciiStrStr : CString → CString → Option Nat
  copyMem : Bytes arch → Word arch → Word arch → Word arch → Bytes arch
  setMem : Bytes arch → Word arch → Word arch → Byte → Bytes arch

/-- What a function leaves. The result is none where it ends without a return
statement. -/
structure Effect (arch : Arch) where
  memory : Bytes arch
  result : Option (Word arch)

variable {arch : Arch} (lib : BaseLib arch)

def memcpy (memory : Bytes arch) (dst src n : Word arch) : Effect arch :=
  ⟨lib.copyMem memory dst src n, none⟩

def memmove (memory : Bytes arch) (dst src n : Word arch) : Effect arch :=
  ⟨lib.copyMem memory dst src n, none⟩

def memset (memory : Bytes arch) (s : Word arch) (c : BitVec 32) (n : Word arch) : Effect arch :=
  ⟨lib.setMem memory s n (c.setWidth 8), none⟩

/-- The pattern is an array of two characters, which ends at its first NUL. -/
def strchr (s : CString) (c : BitVec 32) : Option Nat :=
  lib.asciiStrStr s (.ofArray [c.setWidth 8, 0])

end SblPayload.MicroPython
