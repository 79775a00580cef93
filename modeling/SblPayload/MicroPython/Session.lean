import SblPayload.MicroPython.Main
import SblPayload.MicroPython.Mphalport
import SblPayload.MicroPython.SecStartup

/-! The interpreter as the firmware sees it: the calls of services that the `pyb`
module, the port and `main` make while scripts run. What a service answers may
depend on everything called before it. Under `Session` stand the functions that
other modules have in a form of their own. -/

namespace SblPayload.MicroPython
open Library

variable {arch : Arch}

/-- A call of a service, with what it is told. A buffer is given by its address. -/
inductive ServiceCall (arch : Arch) where
  | debugPrint
  | consoleInit (row col : BitVec 32)
  | consolePoll
  | consoleRead (bytes : Word arch)
  | consoleWrite (text : Text)
  | microSecondDelay (us : Word arch)
  | allocatePages (pages : Nat)
  | freePages (buffer : Word arch) (pages : Nat)
  | drawFrameBuffer (frame : DrawFrameBuffer arch)
  | serialPortWrite (buffer bytes : Word arch)
  | loadFile (path : Text)
  | buildConfigData (buffer : Word arch) (length : BitVec 32)
  | saveConfigData (buffer : Word arch) (length : BitVec 32)
  | platformReset (type : BitVec 32)
deriving DecidableEq

def ServiceCall.field : ServiceCall arch → SblField
  | .debugPrint => .debugPrint
  | .consoleInit _ _ => .consoleInit
  | .consolePoll => .consolePoll
  | .consoleRead _ => .consoleRead
  | .consoleWrite _ => .consoleWrite
  | .microSecondDelay _ => .microSecondDelay
  | .allocatePages _ => .allocatePages
  | .freePages _ _ => .freePages
  | .drawFrameBuffer _ => .drawFrameBuffer
  | .serialPortWrite _ _ => .serialPortWrite
  | .loadFile _ => .loadFile
  | .buildConfigData _ _ => .buildConfigData
  | .saveConfigData _ _ => .saveConfigData
  | .platformReset _ => .platformReset

/-- What a service returns and stores: each call looks at its own part. -/
structure Reply (arch : Arch) where
  ret : Word arch
  ready : Bool
  bytes : List (BitVec 8)
  buffer : Word arch
  length : BitVec 32
deriving DecidableEq

/-- What is answered to the last of these calls, none when it does not return. -/
abbrev Firmware (arch : Arch) := List (ServiceCall arch) → Option (Reply arch)

/-- How a run stops before its end: by an exception, by a division by zero, in a
dead loop, or in a service. -/
inductive Stop where
  | raised (error : MpException)
  | dividedByZero
  | deadLoop
  | gone
deriving DecidableEq

/-- An object, and whether its buffer may be written. -/
structure Arg (arch : Arch) where
  object : MpObj arch
  writable : Bool

/-- What a script gets the interpreter to do that reaches a service. What an
uninitialised variable holds comes with the request. -/
inductive Request (arch : Arch) where
  | consoleInit (icol irow : MpObj arch)
  | fbBlt (buf icol : MpObj arch)
  | uartWrite (buf : MpObj arch)
  | getch (key : BitVec 8)
  | loadFile (path : MpObj arch) (allocates : Bool)
  | buildCfgd (buf : Arg arch)
  | saveCfgd (buf : MpObj arch)
  | reboot (itype : MpObj arch)
  | print (text : Text)
  | printError (text : Text)
  | rxChr
  | poll (pollFlags : Word arch)
  | delayMs (ms : Word arch)
  | delayUs (us : Word arch)
  | moveCursorBack (stack : Nat → Char) (pos : BitVec 32)
  | eraseLineFromCursor (count : BitVec 32)

inductive Value (arch : Arch) where
  | nothing
  | bool (value : Bool)
  | int (value : Int)
  | bytes (size : BitVec 32)

structure Payload (arch : Arch) where
  services : SblService
  calls : List (ServiceCall arch × Address)
  answered : List (Request arch × Value arch)

abbrev PayloadRun (arch : Arch) := Script (Payload arch) Stop

section Functions

variable (firmware : Firmware arch) (memory : Memory)

def service (call : ServiceCall arch) : PayloadRun arch (Reply arch) := do
  let payload ← get
  let calls := payload.calls ++ [(call, payload.services call.field)]
  set { payload with calls }
  match firmware (calls.map Prod.fst) with
  | some reply => return reply
  | none => throw .gone

def checked {α : Type} : Except MpException α → PayloadRun arch α
  | .ok value => return value
  | .error error => throw (.raised error)

/-- The service is declared with the row first. -/
def pybConsoleInit (icol irow : MpObj arch) : PayloadRun arch Bool := do
  let col ← checked (mpObjGetInt icol)
  let row ← checked (mpObjGetInt irow)
  let reply ← service firmware (.consoleInit (row.setWidth 32) (col.setWidth 32))
  return reply.ret = 0

def Session.pybFbBlt (buf icol : MpObj arch) : PayloadRun arch Bool := do
  match MicroPython.pybFbBlt buf icol with
  | .ok frame =>
    let reply ← service firmware (.drawFrameBuffer frame)
    return reply.ret = 0
  | .error (.raised error) => throw (.raised error)
  | .error .dividedByZero => throw .dividedByZero

/-- The count is returned as a signed integer. -/
def pybUartWrite (buf : MpObj arch) : PayloadRun arch Int := do
  let bufinfo ← checked (mpGetBufferRaise buf)
  let reply ← service firmware (.serialPortWrite bufinfo.buf bufinfo.len)
  return reply.ret.toInt

def pybGetch (key : BitVec 8) : PayloadRun arch Int := do
  let poll ← service firmware .consolePoll
  if poll.ready then
    let read ← service firmware (.consoleRead 1)
    return (read.bytes.head?.getD key).toNat
  else return 0

def Session.pybLoadFile (path : MpObj arch) (allocates : Bool) : PayloadRun arch (BitVec 32) := do
  let fileName ← checked (mpObjStrGetStr path)
  let loaded ← service firmware (.loadFile fileName)
  Script.ensure allocates (.raised .memoryError)
  if loaded.buffer ≠ 0 then
    let _ ← service firmware (.freePages loaded.buffer (memory.sizeToPages loaded.length))
  return loaded.length

def mpGetBufferRaiseRw (buf : Arg arch) : Except MpException (MpBufferInfo arch) :=
  if buf.writable then mpGetBufferRaise buf.object else .error .typeError

def pybBuildCfgd (buf : Arg arch) : PayloadRun arch Bool := do
  let bufinfo ← checked (mpGetBufferRaiseRw buf)
  let reply ← service firmware (.buildConfigData bufinfo.buf (bufinfo.len.setWidth 32))
  return reply.ret = 0

def pybSaveCfgd (buf : MpObj arch) : PayloadRun arch Bool := do
  let bufinfo ← checked (mpGetBufferRaise buf)
  let reply ← service firmware (.saveConfigData bufinfo.buf (bufinfo.len.setWidth 32))
  return reply.ret = 0

def pybReboot (itype : MpObj arch) : PayloadRun arch Bool := do
  let type ← checked (mpObjGetInt itype)
  let reply ← service firmware (.platformReset (type.setWidth 32))
  return reply.ret = 0

def mpHalStdoutTxStrn (text : Text) : PayloadRun arch PUnit := do
  let _ ← service firmware (.consoleWrite text)

def stderrPrintStrn (text : Text) : PayloadRun arch PUnit := do
  let _ ← service firmware (.consoleWrite text)

/-- A service that stores nothing leaves the zero the variable is set to. -/
def mpHalStdinRxChr : PayloadRun arch Int := do
  let read ← service firmware (.consoleRead 1)
  return (read.bytes.head?.getD 0).toNat

def mpStreamPollRd : Word arch := 1

def mpHalStdioPoll (pollFlags : Word arch) : PayloadRun arch Int := do
  if pollFlags &&& mpStreamPollRd ≠ 0 then
    let poll ← service firmware .consolePoll
    return if poll.ready then (mpStreamPollRd : Word arch).toNat else 0
  else return 0

def requestDelays (requests : List (Word arch)) : PayloadRun arch PUnit :=
  requests.forM fun us => do let _ ← service firmware (.microSecondDelay us)

def mpHalEraseLineFromCursor (_count : BitVec 32) : PayloadRun arch PUnit :=
  mpHalStdoutTxStrn firmware "\x1b[K".toList

def Request.perform : Request arch → PayloadRun arch (Value arch)
  | .consoleInit icol irow => .bool <$> pybConsoleInit firmware icol irow
  | .fbBlt buf icol => .bool <$> Session.pybFbBlt firmware buf icol
  | .uartWrite buf => .int <$> pybUartWrite firmware buf
  | .getch key => .int <$> pybGetch firmware key
  | .loadFile path allocates => .bytes <$> Session.pybLoadFile firmware memory path allocates
  | .buildCfgd buf => .bool <$> pybBuildCfgd firmware buf
  | .saveCfgd buf => .bool <$> pybSaveCfgd firmware buf
  | .reboot itype => .bool <$> pybReboot firmware itype
  | .print text => (fun _ => .nothing) <$> mpHalStdoutTxStrn firmware text
  | .printError text => (fun _ => .nothing) <$> stderrPrintStrn firmware text
  | .rxChr => .int <$> mpHalStdinRxChr firmware
  | .poll pollFlags => .int <$> mpHalStdioPoll firmware pollFlags
  | .delayMs ms => (fun _ => .nothing) <$> requestDelays firmware (mpHalDelayMs arch ms [])
  | .delayUs us => (fun _ => .nothing) <$> requestDelays firmware (mpHalDelayUs arch us [])
  | .moveCursorBack stack pos =>
    (fun _ => .nothing) <$> mpHalStdoutTxStrn firmware (mpHalMoveCursorBack stack pos).sent
  | .eraseLineFromCursor count => (fun _ => .nothing) <$> mpHalEraseLineFromCursor firmware count

/-- The answer is noted down for the observer of the run. -/
def Request.observed (request : Request arch) : PayloadRun arch (Value arch) := do
  let value ← request.perform firmware memory
  modify fun payload => { payload with answered := payload.answered ++ [(request, value)] }
  return value

def Session.debugAssert : PayloadRun arch PUnit := do
  let _ ← service firmware .debugPrint
  throw .deadLoop

def nlrJumpFail : PayloadRun arch PUnit := do
  mpHalStdoutTxStrn firmware "FATAL: uncaught NLR\n".toList
  throw .deadLoop

/-- What a script does from some point on: after a request it goes on with the
value or, when an exception was raised, at the nearest handler or by raising it
again. The interpreter under it may fail an assertion, or find no handler. -/
inductive Session (arch : Arch) where
  | done
  | raise (error : MpException)
  | assertion
  | uncaught
  | ask (request : Request arch) (next : Value arch → Session arch) (caught : MpException → Session arch)

def attempt {α : Type} (body : PayloadRun arch α) : PayloadRun arch (Except MpException α) :=
  tryCatch (Except.ok <$> body) fun
    | .raised error => return .error error
    | stop => throw stop

def Session.run : Session arch → PayloadRun arch PUnit
  | .done => return
  | .raise error => throw (.raised error)
  | .assertion => Session.debugAssert firmware
  | .uncaught => nlrJumpFail firmware
  | .ask request next caught => do
    match ← attempt (request.observed firmware memory) with
    | .ok value => (next value).run
    | .error error => (caught error).run

/-- `report` is what `mp_obj_print_exception` prints, piece by piece. -/
def Session.doStr (report : MpException → List Text) (script : Session arch) : PayloadRun arch PUnit := do
  match ← attempt (script.run firmware memory) with
  | .ok _ => return
  | .error error => (report error).forM (mpHalStdoutTxStrn firmware)

/-- What is typed at the REPL is one script a line. The heap is not looked at before it
is used. -/
def Session.main (report : MpException → List Text) (startScript : Session arch) (lines : List (Session arch)) :
    PayloadRun arch PUnit := do
  let pages := memory.sizeToPages heapSize
  let heap ← service firmware (.allocatePages pages)
  Session.doStr firmware memory report startScript
  lines.forM (Session.doStr firmware memory report)
  let _ ← service firmware (.freePages heap.buffer pages)

end Functions

end SblPayload.MicroPython
