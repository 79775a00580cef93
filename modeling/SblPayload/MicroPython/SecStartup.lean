import SblPayload.Library.PythonText
import SblPayload.Library.ScriptLogic

/-! The entry of the payload: the services of the boot loader are looked up by
name and bound, then the interpreter is started. -/

namespace SblPayload.MicroPython
open Library

abbrev Address := Nat

inductive SblField where
  | debugPrint
  | consoleInit
  | consolePoll
  | consoleRead
  | consoleWrite
  | microSecondDelay
  | allocatePages
  | freePages
  | drawFrameBuffer
  | serialPortWrite
  | loadFile
  | buildConfigData
  | saveConfigData
  | platformReset
deriving DecidableEq

namespace SblField

def name : SblField → Text
  | .debugPrint => "DebugPrint".toList
  | .consoleInit => "ConsoleInit".toList
  | .consolePoll => "ConsolePoll".toList
  | .consoleRead => "ConsoleRead".toList
  | .consoleWrite => "ConsoleWrite".toList
  | .microSecondDelay => "MicroSecondDelay".toList
  | .allocatePages => "AllocatePages".toList
  | .freePages => "FreePages".toList
  | .drawFrameBuffer => "DrawFrameBuffer".toList
  | .serialPortWrite => "SerialPortWrite".toList
  | .loadFile => "LoadFile".toList
  | .buildConfigData => "BuildConfigData".toList
  | .saveConfigData => "SaveConfigData".toList
  | .platformReset => "PlatformReset".toList

end SblField

/-- The fields of the service table; a field nothing was stored in holds NULL. -/
abbrev SblService := SblField → Address

inductive TableEntry where
  | text (text : Text)
  | field (field : SblField)
deriving DecidableEq

def serivceMapTbl : List TableEntry := [
  .text "DebugPrint".toList, .field .debugPrint,
  .text "ConsoleInit".toList, .field .consoleInit,
  .text "ConsolePoll".toList, .field .consolePoll,
  .text "ConsoleRead".toList, .field .consoleRead,
  .text "ConsoleWrite".toList, .field .consoleWrite,
  .text "MicroSecondDelay".toList, .field .microSecondDelay,
  .text "AllocatePages".toList, .field .allocatePages,
  .text "FreePages".toList, .field .freePages,
  .text "DrawFrameBuffer".toList, .field .drawFrameBuffer,
  .text "SerialPortWrite".toList, .field .serialPortWrite,
  .text "LoadFile".toList, .field .loadFile,
  .text "BuildConfigData".toList, .field .buildConfigData,
  .text "SaveConfigData".toList, .field .saveConfigData,
  .text "PlatformReset".toList, .field .platformReset]

inductive BootEvent where
  | getProcAddress (name : Text)
  | store (field : SblField) (func : Address)
  | call (field : SblField) (func : Address)
  | main (services : SblService)
  | cpuDeadLoop

structure Boot where
  services : SblService
  events : List BootEvent

/-- The run that never returns from `CpuDeadLoop`. -/
inductive Halted where
  | deadLoop
deriving DecidableEq

abbrev BootRun := Script Boot Halted

def record (event : BootEvent) : BootRun PUnit := modify fun boot => { boot with events := boot.events ++ [event] }

def cpuDeadLoop {α : Type} : BootRun α := do
  record .cpuDeadLoop
  throw .deadLoop

def callService (field : SblField) : BootRun PUnit := do
  let func := (← get).services field
  record (.call field func)

/-- `debug_assert`: the message goes out through the table itself. -/
def debugAssert : BootRun PUnit := do
  callService .debugPrint
  cpuDeadLoop

def assert (holds : Bool) : BootRun PUnit := if holds then return else debugAssert

def storeService (field : SblField) (func : Address) : BootRun PUnit := do
  record (.store field func)
  modify fun boot => { boot with services := fun other => if other = field then func else boot.services other }

/-- A missing service stops the run. The first row cannot use the handler, which
needs the service it binds. -/
def checkFound (idx : Nat) (func : Address) : BootRun PUnit :=
  if func = 0 then if idx > 0 then assert (func ≠ 0) else cpuDeadLoop
  else return

def bindServices (getProcAddress : Text → Address) (idx : Nat) : List TableEntry → BootRun PUnit
  | .text name :: .field field :: rest => do
    record (.getProcAddress name)
    let func := getProcAddress name
    checkFound idx func
    storeService field func
    bindServices getProcAddress (idx + 2) rest
  | _ => return

def secStartup (getProcAddress : Text → Address) : BootRun PUnit := do
  bindServices getProcAddress 0 serivceMapTbl
  callService .debugPrint
  let boot ← get
  record (.main boot.services)
  cpuDeadLoop

end SblPayload.MicroPython
