import SblPayload.MicroPython.Modpyb

/-! The run of the interpreter: the heap, the start script, the REPL. Only what a
script does with `pyb.load_file` is followed. -/

namespace SblPayload.MicroPython
open Library

variable {arch : Arch} (memory : Memory)

/-- What a script does from some point on: it ends, it raises, or it calls
`pyb.load_file`. After a call it goes on in one way when the call returns, and in
another, at the nearest handler of its own or by raising again, when it does not. -/
inductive Activity (arch : Arch) where
  | done
  | raise (error : MpException)
  | load (call : LoadCall arch) (next caught : Activity arch)

def observedLoad (call : LoadCall arch) : Interp arch Bool := do
  let before := (← get).pages.held
  let returned ← tryCatch (do let _ ← pybLoadFile memory call; return true) (fun _ => return false)
  modify fun services => { services with calls := services.calls ++ [(before, services.pages.held)] }
  return returned

def Activity.run : Activity arch → Interp arch PUnit
  | .done => return
  | .raise error => throw error
  | .load call next caught => do if ← observedLoad memory call then next.run else caught.run

def doStr (script : Activity arch) : Interp arch PUnit := tryCatch (script.run memory) (fun _ => return)

/-- The REPL runs line after line, each under a handler of its own. -/
def pyexecFriendlyRepl (lines : List (Activity arch)) : Interp arch PUnit := lines.forM (doStr memory)

def heapSize : BitVec 32 := 0x1000000

/-- `AllocatePages`, where it succeeds. -/
def allocatePages (buffer : Word arch) (pages : Nat) : Interp arch PUnit :=
  modify fun services => { services with pages := services.pages.obtain (buffer, pages) }

def main (heap : { buffer : Word arch // buffer ≠ 0 }) (startScript : Activity arch) (lines : List (Activity arch)) :
    Interp arch PUnit := do
  allocatePages heap.val (memory.sizeToPages heapSize)
  doStr memory startScript
  pyexecFriendlyRepl memory lines
  freePages heap.val (memory.sizeToPages heapSize)

end SblPayload.MicroPython
