import SblPayload.Library.ScriptChanges
import SblPayload.MicroPython.Session

/-! Rules for what a run of the interpreter may do to the record of its calls: what
every call of a service and every note of an answer keeps, the whole run keeps. -/

namespace SblPayload.Proofs.SessionLogic
open Library MicroPython Script

variable {arch : Arch} {firmware : Firmware arch} {memory : Memory} {changes : Changes (Payload arch)}

def called (payload : Payload arch) (call : ServiceCall arch) : Payload arch :=
  { payload with calls := payload.calls ++ [(call, payload.services call.field)] }

def history (payload : Payload arch) : List (ServiceCall arch) := payload.calls.map Prod.fst

theorem history_called (payload : Payload arch) (call : ServiceCall arch) :
    history (called payload call) = history payload ++ [call] := List.map_append

theorem exec_service (call : ServiceCall arch) (payload : Payload arch) :
    (service firmware call).exec payload =
      match firmware (payload.calls.map Prod.fst ++ [call]) with
      | some reply => (.ok reply, called payload call)
      | none => (.error .gone, called payload call) := by
  have history : (payload.calls ++ [(call, payload.services call.field)]).map Prod.fst =
      payload.calls.map Prod.fst ++ [call] := List.map_append
  unfold service
  rw [exec_bind, exec_get]
  dsimp only
  rw [exec_bind, exec_set, history]
  dsimp only
  cases firmware (payload.calls.map Prod.fst ++ [call]) with
  | some reply => rfl
  | none => rfl

theorem service_answered {call : ServiceCall arch} {payload : Payload arch} {reply : Reply arch}
    (answered : firmware (history payload ++ [call]) = some reply) :
    (service firmware call).exec payload = (.ok reply, called payload call) := by
  rw [exec_service]
  change firmware (payload.calls.map Prod.fst ++ [call]) = some reply at answered
  rw [answered]

theorem service_gone {call : ServiceCall arch} {payload : Payload arch}
    (unanswered : firmware (history payload ++ [call]) = none) :
    (service firmware call).exec payload = (.error .gone, called payload call) := by
  rw [exec_service]
  change firmware (payload.calls.map Prod.fst ++ [call]) = none at unanswered
  rw [unanswered]

theorem service_returned {call : ServiceCall arch} {payload last : Payload arch} {reply : Reply arch}
    (returned : (service firmware call).exec payload = (.ok reply, last)) :
    firmware (history payload ++ [call]) = some reply ∧ last = called payload call := by
  cases answered : firmware (history payload ++ [call]) with
  | none =>
    rw [service_gone answered] at returned
    cases returned
  | some found =>
    rw [service_answered answered] at returned
    cases returned
    exact ⟨rfl, rfl⟩

variable (firmware changes) in
abbrev Allows (call : ServiceCall arch) : Prop := Within changes (service firmware call)

/-- The calls a request may come to, as far as its arguments decide. -/
def requested (memory : Memory) : Request arch → ServiceCall arch → Prop
  | .consoleInit icol irow, call => ∃ col row, mpObjGetInt icol = .ok col ∧ mpObjGetInt irow = .ok row ∧
    call = .consoleInit (row.setWidth 32) (col.setWidth 32)
  | .fbBlt buf icol, call => ∃ frame, pybFbBlt buf icol = .ok frame ∧ call = .drawFrameBuffer frame
  | .uartWrite buf, call => ∃ info, mpGetBufferRaise buf = .ok info ∧ call = .serialPortWrite info.buf info.len
  | .getch _, call => call = .consolePoll ∨ call = .consoleRead 1
  | .loadFile path _, call => ∃ fileName, mpObjStrGetStr path = .ok fileName ∧
    (call = .loadFile fileName ∨ ∃ buffer length, buffer ≠ 0 ∧ call = .freePages buffer (memory.sizeToPages length))
  | .buildCfgd buf, call => ∃ info, mpGetBufferRaiseRw buf = .ok info ∧
    call = .buildConfigData info.buf (info.len.setWidth 32)
  | .saveCfgd buf, call => ∃ info, mpGetBufferRaise buf = .ok info ∧ call = .saveConfigData info.buf (info.len.setWidth 32)
  | .reboot itype, call => ∃ type, mpObjGetInt itype = .ok type ∧ call = .platformReset (type.setWidth 32)
  | .print text, call => call = .consoleWrite text
  | .printError text, call => call = .consoleWrite text
  | .rxChr, call => call = .consoleRead 1
  | .poll pollFlags, call => pollFlags &&& mpStreamPollRd ≠ 0 ∧ call = .consolePoll
  | .delayMs ms, call => ∃ delay ∈ mpHalDelayMs arch ms [], call = .microSecondDelay delay
  | .delayUs us, call => ∃ delay ∈ mpHalDelayUs arch us [], call = .microSecondDelay delay
  | .moveCursorBack stack pos, call => call = .consoleWrite (mpHalMoveCursorBack stack pos).sent
  | .eraseLineFromCursor _, call => call = .consoleWrite "\x1b[K".toList

/-- The services a request may reach. -/
def servicesOf : Request arch → List SblField
  | .consoleInit _ _ => [.consoleInit]
  | .fbBlt _ _ => [.drawFrameBuffer]
  | .uartWrite _ => [.serialPortWrite]
  | .getch _ => [.consolePoll, .consoleRead]
  | .loadFile _ _ => [.loadFile, .freePages]
  | .buildCfgd _ => [.buildConfigData]
  | .saveCfgd _ => [.saveConfigData]
  | .reboot _ => [.platformReset]
  | .rxChr => [.consoleRead]
  | .poll _ => [.consolePoll]
  | .delayMs _ | .delayUs _ => [.microSecondDelay]
  | .print _ | .printError _ | .moveCursorBack _ _ | .eraseLineFromCursor _ => [.consoleWrite]

theorem requested_service {request : Request arch} {call : ServiceCall arch} (made : requested memory request call) :
    call.field ∈ servicesOf request := by
  cases request with
  | consoleInit icol irow =>
    obtain ⟨_, _, _, _, rfl⟩ := made
    exact List.mem_cons_self
  | getch key => rcases made with rfl | rfl <;> simp [servicesOf, ServiceCall.field]
  | loadFile path allocates => obtain ⟨_, _, rfl | ⟨_, _, _, rfl⟩⟩ := made <;> simp [servicesOf, ServiceCall.field]
  | fbBlt buf icol | uartWrite buf | buildCfgd buf | saveCfgd buf | reboot itype | delayMs ms | delayUs us =>
    obtain ⟨_, _, rfl⟩ := made
    exact List.mem_cons_self
  | poll pollFlags =>
    obtain ⟨_, rfl⟩ := made
    exact List.mem_cons_self
  | print text | printError text | rxChr | moveCursorBack stack pos | eraseLineFromCursor count =>
    obtain rfl := made
    exact List.mem_cons_self

/-- Some request of the script, whatever it is answered, is of this kind. -/
inductive Asks (kind : Request arch → Prop) : Session arch → Prop where
  | now {request next caught} (here : kind request) : Asks kind (.ask request next caught)
  | next {request next caught} (value : Value arch) (later : Asks kind (next value)) : Asks kind (.ask request next caught)
  | caught {request next caught} (error : MpException) (later : Asks kind (caught error)) :
    Asks kind (.ask request next caught)

theorem Asks.mono {kind weaker : Request arch → Prop} {script : Session arch} (asks : Asks kind script)
    (implies : ∀ request, kind request → weaker request) : Asks weaker script := by
  induction asks with
  | now here => exact Asks.now (implies _ here)
  | next value _ ih => exact Asks.next value ih
  | caught error _ ih => exact Asks.caught error ih

section Requests

theorem service_map_within {α : Type} {call : ServiceCall arch} (allowed : Allows firmware changes call)
    (change : Reply arch → α) : Within changes (do let reply ← service firmware call; return change reply) :=
  Within.bind allowed fun reply => Within.pure (change reply)

theorem checked_bind_within {α β : Type} {result : Except MpException α} {next : α → PayloadRun arch β}
    (rest : ∀ value, result = .ok value → Within changes (next value)) : Within changes (checked result >>= next) := by
  cases result with
  | ok value => exact fun payload => rest value rfl payload
  | error error => exact fun payload => changes.refl payload

theorem ensure_within (holds : Bool) (stop : Stop) : Within changes (ensure holds stop : PayloadRun arch PUnit) := by
  cases holds with
  | true => exact Within.pure _
  | false => exact Within.throw _

theorem print_within {text : Text} (allowed : Allows firmware changes (.consoleWrite text)) :
    Within changes (mpHalStdoutTxStrn firmware text) :=
  service_map_within allowed fun _ => PUnit.unit

theorem requestDelays_within {requests : List (Word arch)}
    (allowed : ∀ us ∈ requests, Allows firmware changes (.microSecondDelay us)) :
    Within changes (requestDelays firmware requests) :=
  Within.forM fun us member => service_map_within (allowed us member) fun _ => PUnit.unit

theorem pybGetch_within (poll : Allows firmware changes .consolePoll) (read : Allows firmware changes (.consoleRead 1))
    (key : BitVec 8) : Within changes (pybGetch firmware key) := by
  apply Within.bind poll
  intro polled
  split
  · exact service_map_within read _
  · exact Within.pure _

theorem pybLoadFile_within {path : MpObj arch} (allocates : Bool)
    (allowed : ∀ call, requested memory (.loadFile path allocates) call → Allows firmware changes call) :
    Within changes (Session.pybLoadFile firmware memory path allocates) := by
  apply checked_bind_within
  intro fileName found
  apply Within.bind (allowed _ ⟨fileName, found, Or.inl rfl⟩)
  intro loaded
  apply Within.bind (ensure_within allocates _)
  intro _
  split
  next there =>
    have freed := allowed _ ⟨fileName, found, Or.inr ⟨loaded.buffer, loaded.length, there, rfl⟩⟩
    exact Within.bind freed fun _ => Within.pure loaded.length
  next => exact Within.pure loaded.length

theorem perform_within (request : Request arch)
    (allowed : ∀ call, requested memory request call → Allows firmware changes call) :
    Within changes (request.perform firmware memory) := by
  cases request with
  | consoleInit icol irow =>
    apply Within.map
    apply checked_bind_within
    intro col counted
    apply checked_bind_within
    intro row read
    exact service_map_within (allowed _ ⟨col, row, counted, read, rfl⟩) _
  | fbBlt buf icol =>
    apply Within.map
    unfold Session.pybFbBlt
    cases drawn : pybFbBlt buf icol with
    | ok frame => exact service_map_within (allowed _ ⟨frame, drawn, rfl⟩) _
    | error stop =>
      cases stop with
      | raised error => exact Within.throw _
      | dividedByZero => exact Within.throw _
  | uartWrite buf =>
    apply Within.map
    apply checked_bind_within
    exact fun info found => service_map_within (allowed _ ⟨info, found, rfl⟩) _
  | getch key => exact Within.map (pybGetch_within (allowed _ (Or.inl rfl)) (allowed _ (Or.inr rfl)) key) _
  | loadFile path allocates => exact Within.map (pybLoadFile_within allocates allowed) _
  | buildCfgd buf =>
    apply Within.map
    apply checked_bind_within
    exact fun info found => service_map_within (allowed _ ⟨info, found, rfl⟩) _
  | saveCfgd buf =>
    apply Within.map
    apply checked_bind_within
    exact fun info found => service_map_within (allowed _ ⟨info, found, rfl⟩) _
  | reboot itype =>
    apply Within.map
    apply checked_bind_within
    exact fun type found => service_map_within (allowed _ ⟨type, found, rfl⟩) _
  | print text => exact Within.map (print_within (allowed _ rfl)) _
  | printError text => exact Within.map (print_within (allowed _ rfl)) _
  | rxChr => exact Within.map (service_map_within (allowed _ rfl) _) _
  | poll pollFlags =>
    apply Within.map
    unfold mpHalStdioPoll
    split
    next asked => exact service_map_within (allowed _ ⟨asked, rfl⟩) _
    next => exact Within.pure _
  | delayMs ms => exact Within.map (requestDelays_within fun us member => allowed _ ⟨us, member, rfl⟩) _
  | delayUs us => exact Within.map (requestDelays_within fun us member => allowed _ ⟨us, member, rfl⟩) _
  | moveCursorBack stack pos => exact Within.map (print_within (allowed _ rfl)) _
  | eraseLineFromCursor count => exact Within.map (print_within (allowed _ rfl)) _

def noted (payload : Payload arch) (request : Request arch) (value : Value arch) : Payload arch :=
  { payload with answered := payload.answered ++ [(request, value)] }

theorem observed_within {request : Request arch}
    (allowed : ∀ call, requested memory request call → Allows firmware changes call)
    (note : ∀ value payload, changes.allowed payload (noted payload request value)) :
    Within changes (request.observed firmware memory) := by
  apply Within.bind (perform_within request allowed)
  intro value
  exact Within.bind (Within.modify (note value)) fun _ => Within.pure value

end Requests

section Runs

theorem attempt_within {α : Type} {body : PayloadRun arch α} (held : Within changes body) :
    Within changes (attempt body) := by
  apply Within.tryCatch (Within.map held _)
  intro stop
  cases stop with
  | raised error => exact Within.pure _
  | dividedByZero => exact Within.throw _
  | deadLoop => exact Within.throw _
  | gone => exact Within.throw _

variable (asserts : Allows firmware changes .debugPrint) (prints : ∀ text, Allows firmware changes (.consoleWrite text))
include asserts prints

theorem run_within {script : Session arch}
    (asked : ∀ request, Asks (· = request) script → Within changes (request.observed firmware memory)) :
    Within changes (script.run firmware memory) := by
  induction script with
  | done => exact Within.pure _
  | raise error => exact Within.throw _
  | assertion => exact Within.bind asserts fun _ => Within.throw _
  | uncaught => exact Within.bind (print_within (prints _)) fun _ => Within.throw _
  | ask request next caught nextWithin caughtWithin =>
    rw [Session.run]
    apply Within.bind (attempt_within (asked request (Asks.now rfl)))
    intro outcome
    cases outcome with
    | ok value => exact nextWithin value fun other later => asked other (Asks.next value later)
    | error error => exact caughtWithin error fun other later => asked other (Asks.caught error later)

variable {report : MpException → List Text} {startScript : Session arch} {lines : List (Session arch)}

theorem doStr_within {script : Session arch}
    (asked : ∀ request, Asks (· = request) script → Within changes (request.observed firmware memory)) :
    Within changes (Session.doStr firmware memory report script) := by
  apply Within.bind (attempt_within (run_within asserts prints asked))
  intro outcome
  cases outcome with
  | ok value => exact Within.pure _
  | error error => exact Within.forM fun text _ => print_within (prints text)

omit asserts prints

variable (firmware memory report startScript lines) in
/-- What `main` does between the allocation of the heap and its release. -/
def scripts : PayloadRun arch PUnit := do
  Session.doStr firmware memory report startScript
  lines.forM (Session.doStr firmware memory report)

theorem main_eq : Session.main firmware memory report startScript lines = (do
    let heap ← service firmware (.allocatePages (memory.sizeToPages heapSize))
    scripts firmware memory report startScript lines
    let _ ← service firmware (.freePages heap.buffer (memory.sizeToPages heapSize))) := by
  unfold Session.main scripts
  simp only [bind_assoc]

variable (asked : ∀ script ∈ startScript :: lines, ∀ request, Asks (· = request) script →
  Within changes (request.observed firmware memory))
include asserts prints asked

theorem scripts_within : Within changes (scripts firmware memory report startScript lines) := by
  apply Within.bind (doStr_within asserts prints (asked startScript List.mem_cons_self))
  intro _
  exact Within.forM fun script member =>
    doStr_within asserts prints (asked script (List.mem_cons_of_mem startScript member))

theorem main_within (allocates : Allows firmware changes (.allocatePages (memory.sizeToPages heapSize)))
    (frees : ∀ buffer, Allows firmware changes (.freePages buffer (memory.sizeToPages heapSize))) :
    Within changes (Session.main firmware memory report startScript lines) := by
  rw [main_eq]
  apply Within.bind allocates
  intro heap
  apply Within.bind (scripts_within asserts prints asked)
  intro _
  exact service_map_within (frees heap.buffer) fun _ => PUnit.unit

end Runs

end SblPayload.Proofs.SessionLogic
