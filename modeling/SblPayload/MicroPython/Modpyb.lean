import SblPayload.Library.Ledger
import SblPayload.Library.PythonText
import SblPayload.Library.ScriptLogic
import SblPayload.MicroPython.Platform

/-! The functions of the `pyb` module that hand data to the firmware services. A
Python exception leaves a function by a non-local jump: what the function had
done before it stays done. -/

namespace SblPayload.MicroPython
open Library

inductive MpException where
  | typeError
  | overflowError
  | memoryError
  | other
deriving DecidableEq

structure MpBufferInfo (arch : Arch) where
  buf : Word arch
  len : Word arch
deriving DecidableEq

structure MpObj (arch : Arch) where
  buffer : Option (MpBufferInfo arch)
  int : Option Int
  str : Option Text

variable {arch : Arch} {σ : Type}

def mpGetBufferRaise (object : MpObj arch) : Except MpException (MpBufferInfo arch) :=
  match object.buffer with
  | some info => .ok info
  | none => .error .typeError

/-- `mp_obj_get_int` accepts the signed machine words. -/
def mpObjGetInt (object : MpObj arch) : Except MpException (Word arch) :=
  match object.int with
  | none => .error .typeError
  | some value =>
    if -2 ^ (arch.bits - 1) ≤ value ∧ value < 2 ^ (arch.bits - 1) then .ok (BitVec.ofInt arch.bits value)
    else .error .overflowError

def mpObjStrGetStr (object : MpObj arch) : Except MpException Text :=
  match object.str with
  | some text => .ok text
  | none => .error .typeError

structure DrawFrameBuffer (arch : Arch) where
  first : BitVec 32
  second : BitVec 32
  buffer : Word arch
deriving DecidableEq

/-- How `pyb.fb_blt` ends before `DrawFrameBuffer` is called. -/
inductive FbBltStop where
  | raised (error : MpException)
  | dividedByZero
deriving DecidableEq

def pybFbBlt (buf icol : MpObj arch) : Except FbBltStop (DrawFrameBuffer arch) :=
  match mpGetBufferRaise buf with
  | .error error => .error (.raised error)
  | .ok bufinfo =>
    match mpObjGetInt icol with
    | .error error => .error (.raised error)
    | .ok col =>
      match divU64x32 (bufinfo.len.setWidth 64) ((col * 2).setWidth 32) with
      | none => .error .dividedByZero
      | some quotient =>
        let row : Word arch := quotient.setWidth arch.bits
        .ok ⟨row.setWidth 32, col.setWidth 32, bufinfo.buf⟩

/-- The parts of the firmware and of the interpreter that decide what a page count
is, and whether `mp_obj_new_bytes` reads from a NULL source. -/
structure Memory where
  sizeToPages : BitVec 32 → Nat
  readsNull : Bool

/-- The pages of the services, what was copied into new objects, and for each call
of `pyb.load_file` the pages held before and after it. -/
structure Services (arch : Arch) where
  pages : Ledger (Word arch × Nat)
  copied : List (Word arch × BitVec 32)
  calls : List (Multiset (Word arch × Nat) × Multiset (Word arch × Nat))

structure LoadFile (arch : Arch) where
  status : Word arch
  buffer : Word arch
  length : BitVec 32

structure LoadCall (arch : Arch) where
  path : MpObj arch
  loaded : LoadFile arch
  allocates : Bool

abbrev Interp (arch : Arch) := Script (Services arch) MpException

variable (memory : Memory)

/-- A buffer that `LoadFile` sets has been allocated for it. -/
def loadFile (loaded : LoadFile arch) : Interp arch PUnit := modify fun services =>
  if loaded.buffer = 0 then services
  else { services with pages := services.pages.obtain (loaded.buffer, memory.sizeToPages loaded.length) }

def mpObjNewBytes (allocates : Bool) (image : Word arch) (size : BitVec 32) : Interp arch (BitVec 32) := do
  Script.ensure allocates .memoryError
  modify fun services =>
    if image = 0 && !memory.readsNull then services else { services with copied := services.copied ++ [(image, size)] }
  return size

def freePages (buffer : Word arch) (pages : Nat) : Interp arch PUnit :=
  modify fun services => { services with pages := services.pages.release (buffer, pages) }

def pybLoadFile (call : LoadCall arch) : Interp arch (BitVec 32) := do
  let _ ← Script.ofExcept (mpObjStrGetStr call.path)
  loadFile memory call.loaded
  let image := call.loaded.buffer
  let imageSize := call.loaded.length
  let ret ← mpObjNewBytes memory call.allocates image imageSize
  if image ≠ 0 then freePages image (memory.sizeToPages imageSize)
  return ret

end SblPayload.MicroPython
