import SblPayload.Proofs.ServiceBinding
import SblPayload.Proofs.SessionLogic

/-! The calls of services in a whole run, from the entry of the payload to the end
of the interpreter: where they go, what they are told, and which of them frame the
others. -/

namespace SblPayload.Proofs.SessionCalls
open Library MicroPython Script SessionLogic

variable {arch : Arch}

/-- Calls are added at the end, each through its field of the table, and the table
stays as it is. -/
structure Extends (expected : ServiceCall arch → Prop) (before after : Payload arch) : Prop where
  services : after.services = before.services
  calls : ∃ more : List (ServiceCall arch), (∀ call ∈ more, expected call) ∧
    after.calls = before.calls ++ more.map fun call => (call, before.services call.field)

def extending (expected : ServiceCall arch → Prop) : Changes (Payload arch) where
  allowed := Extends expected
  refl payload := ⟨rfl, [], fun _ none => absurd none List.not_mem_nil, (List.append_nil _).symm⟩
  trans first second := by
    obtain ⟨early, earlyExpected, firstCalls⟩ := first.calls
    obtain ⟨late, lateExpected, secondCalls⟩ := second.calls
    refine ⟨second.services.trans first.services, early ++ late, fun call member => ?_, ?_⟩
    · rcases List.mem_append.mp member with before | after
      · exact earlyExpected call before
      · exact lateExpected call after
    · rw [secondCalls, firstCalls, first.services, List.map_append, List.append_assoc]

variable {expected : ServiceCall arch → Prop} {firmware : Firmware arch} {memory : Memory}

theorem service_extends {call : ServiceCall arch} (wanted : expected call) :
    Allows firmware (extending expected) call := by
  intro payload
  have made : Extends expected payload (called payload call) := by
    refine ⟨rfl, [call], fun other member => ?_, rfl⟩
    exact List.mem_singleton.mp member ▸ wanted
  rw [exec_service]
  split
  · exact made
  · exact made

theorem note_extends (request : Request arch) (value : Value arch) (payload : Payload arch) :
    Extends expected payload (noted payload request value) :=
  ⟨rfl, [], fun _ none => absurd none List.not_mem_nil, (List.append_nil _).symm⟩

theorem Extends.mono {before after : Payload arch} {weaker : ServiceCall arch → Prop} (extends_ : Extends expected before after)
    (implies : ∀ call, expected call → weaker call) : Extends weaker before after := by
  obtain ⟨services, more, all, same⟩ := extends_
  exact ⟨services, more, fun call member => implies call (all call member), same⟩

section Whole

variable (firmware memory) (report : MpException → List Text) (startScript : Session arch) (lines : List (Session arch))

/-- What can be called between the allocation of the heap and its release. -/
def Scripted (call : ServiceCall arch) : Prop :=
  (∃ script ∈ startScript :: lines, Asks (fun request => requested memory request call) script) ∨
    call = .debugPrint ∨ ∃ text, call = .consoleWrite text

theorem asked_extends (weaker : ∀ call, Scripted memory startScript lines call → expected call) :
    ∀ script ∈ startScript :: lines, ∀ request, Asks (· = request) script →
      Within (extending expected) (request.observed firmware memory) := by
  intro script member request asks
  apply observed_within
  · intro call made
    exact service_extends (weaker call (Or.inl ⟨script, member, asks.mono fun other same => same ▸ made⟩))
  · exact note_extends request

theorem scripts_extend : Within (extending (Scripted memory startScript lines))
    (scripts firmware memory report startScript lines) := by
  apply scripts_within
  · exact service_extends (Or.inr (Or.inl rfl))
  · exact fun text => service_extends (Or.inr (Or.inr ⟨text, rfl⟩))
  · exact asked_extends firmware memory startScript lines fun _ => id

/-- Everything a run calls. -/
def Interpreted (call : ServiceCall arch) : Prop :=
  Scripted memory startScript lines call ∨ call = .allocatePages (memory.sizeToPages heapSize) ∨
    ∃ buffer, call = .freePages buffer (memory.sizeToPages heapSize)

theorem main_extends : Within (extending (Interpreted memory startScript lines))
    (Session.main firmware memory report startScript lines) := by
  apply main_within
  · exact service_extends (Or.inl (Or.inr (Or.inl rfl)))
  · exact fun text => service_extends (Or.inl (Or.inr (Or.inr ⟨text, rfl⟩)))
  · exact asked_extends firmware memory startScript lines fun _ => Or.inl
  · exact service_extends (Or.inr (Or.inl rfl))
  · exact fun buffer => service_extends (Or.inr (Or.inr ⟨buffer, rfl⟩))

end Whole

section Addresses

open ServiceBinding

theorem started_bound {getProcAddress : Text → Address} {services : SblService}
    (started : .main services ∈ ((secStartup getProcAddress).exec ⟨fun _ => 0, []⟩).2.events) (field : SblField) :
    services field = getProcAddress field.name ∧ services field ≠ 0 := by
  obtain ⟨_, stopped | ⟨boot, bound, ended⟩⟩ := startup_cases getProcAddress
  · exact absurd started (stopped.noMain services)
  · rw [ended, exec_startInterpreter] at started
    have same : services = boot.services := by simpa [bound.noMain] using started
    have address := bound_services bound field
    refine ⟨same ▸ address, ?_⟩
    rw [same, address]
    exact bound.found field (mem_fields field)

theorem startup_calls (getProcAddress : Text → Address) :
    CallsBound getProcAddress ((secStartup getProcAddress).exec ⟨fun _ => 0, []⟩).2 := by
  obtain ⟨_, stopped | ⟨boot, bound, ended⟩⟩ := startup_cases getProcAddress
  · exact stopped.calls
  · rw [ended]
    exact bound_calls bound

theorem call_address {expected : ServiceCall arch → Prop} {script : PayloadRun arch PUnit} (makes : Within (extending expected) script)
    {services : SblService} {call : ServiceCall arch} {func : Address}
    (member : (call, func) ∈ (script.exec ⟨services, [], []⟩).2.calls) : expected call ∧ func = services call.field := by
  obtain ⟨more, all, same⟩ := (makes ⟨services, [], []⟩).calls
  rw [same, List.nil_append] at member
  obtain ⟨made, inside, equal⟩ := List.mem_map.mp member
  obtain ⟨rfl, rfl⟩ := Prod.mk.inj equal
  exact ⟨all made inside, rfl⟩

variable (firmware : Firmware arch) (memory : Memory) (report : MpException → List Text) (startScript : Session arch)
  (lines : List (Session arch))

/-- Whatever the resolver, the scripts and the firmware do, every call of a service
in a whole run goes to the address found under the name of that service. -/
theorem every_call_resolved (getProcAddress : Text → Address) :
    let boot := ((secStartup getProcAddress).exec ⟨fun _ => 0, []⟩).2
    (∀ field func, .call field func ∈ boot.events → func = getProcAddress field.name ∧ func ≠ 0) ∧
      ∀ services, .main services ∈ boot.events → ∀ call func,
        (call, func) ∈ ((Session.main firmware memory report startScript lines).exec ⟨services, [], []⟩).2.calls →
        func = getProcAddress call.field.name ∧ func ≠ 0 := by
  refine ⟨fun field func member => ?_, fun services started call func member => ?_⟩
  · obtain ⟨rfl, address, found⟩ := startup_calls getProcAddress field func member
    exact ⟨address, found⟩
  · obtain ⟨_, rfl⟩ := call_address (main_extends firmware memory report startScript lines) member
    exact started_bound started call.field

theorem requested_not_allocate (request : Request arch) (count : Nat) : ¬ requested memory request (.allocatePages count) := by
  intro made
  have reached : SblField.allocatePages ∈ servicesOf request := requested_service made
  cases request <;> simp [servicesOf] at reached

theorem asks_not_allocate {script : Session arch} {call : ServiceCall arch}
    (asks : Asks (fun request => requested memory request call) script) (count : Nat) : call ≠ .allocatePages count := by
  rintro rfl
  induction asks with
  | now made => exact requested_not_allocate memory _ count made
  | next value later ih => exact ih
  | caught error later ih => exact ih

theorem scripted_not_allocate {call : ServiceCall arch} (scripted : Scripted memory startScript lines call)
    (count : Nat) : call ≠ .allocatePages count := by
  rcases scripted with ⟨script, _, asks⟩ | rfl | ⟨text, rfl⟩
  · exact asks_not_allocate memory asks count
  · exact nofun
  · exact nofun

/-- The heap is allocated first, by no other call, and given back last if the run
returns. -/
def Framed (pages : Nat) (ended : Except Stop PUnit × Payload arch) : Prop :=
  ∃ later, ended.2.calls.map Prod.fst = .allocatePages pages :: later ∧ (∀ count, .allocatePages count ∉ later) ∧
    (ended.1 = .ok ⟨⟩ → ∃ heap front, firmware [.allocatePages pages] = some heap ∧
      later = front ++ [.freePages heap.buffer pages])

theorem framed_later {payload : Payload arch} {heap : Reply arch} {pages : Nat}
    (started : payload.calls.map Prod.fst = [.allocatePages pages]) (allocated : firmware [.allocatePages pages] = some heap) :
    Framed firmware pages (Script.exec (do
      scripts firmware memory report startScript lines
      let _ ← service firmware (.freePages heap.buffer pages)) payload) := by
  obtain ⟨more, all, same⟩ := (scripts_extend firmware memory report startScript lines payload).calls
  have fresh : ∀ count, .allocatePages count ∉ more :=
    fun count member => scripted_not_allocate memory startScript lines (all _ member) count rfl
  rw [exec_bind]
  cases ran : (scripts firmware memory report startScript lines).exec payload with
  | mk result after =>
    rw [ran] at same
    have front : after.calls.map Prod.fst = .allocatePages pages :: more := by
      rw [same, List.map_append, started, List.map_map]
      exact congrArg (List.cons _) (List.map_id more)
    cases result with
    | error stop =>
      refine ⟨more, front, fresh, fun returned => ?_⟩
      cases returned
    | ok value =>
      have last : (called after (.freePages heap.buffer pages)).calls.map Prod.fst =
          .allocatePages pages :: (more ++ [.freePages heap.buffer pages]) := by
        rw [called, List.map_append, front]
        rfl
      have rest : ∀ count, .allocatePages count ∉ more ++ [.freePages heap.buffer pages] := by
        intro count member
        rcases List.mem_append.mp member with scripted | freed
        · exact fresh count scripted
        · cases List.mem_singleton.mp freed
      dsimp only
      rw [exec_bind, exec_service]
      cases firmware (after.calls.map Prod.fst ++ [.freePages heap.buffer pages]) with
      | none =>
        refine ⟨_, last, rest, fun returned => ?_⟩
        cases returned
      | some reply => exact ⟨_, last, rest, fun _ => ⟨heap, more, allocated, rfl⟩⟩

/-- In every run the heap is allocated before anything else is called, and nothing
else allocates pages; a run that returns gives it back last. -/
theorem heap_brackets_run (services : SblService) :
    Framed firmware (memory.sizeToPages heapSize)
      ((Session.main firmware memory report startScript lines).exec ⟨services, [], []⟩) := by
  rw [main_eq, exec_bind, exec_service]
  cases allocated : firmware [.allocatePages (memory.sizeToPages heapSize)] with
  | none =>
    simp only [List.map_nil, List.nil_append, allocated]
    refine ⟨[], rfl, fun _ => List.not_mem_nil, fun returned => ?_⟩
    cases returned
  | some heap =>
    simp only [List.map_nil, List.nil_append, allocated]
    exact framed_later firmware memory report startScript lines rfl allocated

/-- The bytes a service is told to read or write, by address and number. -/
def described : ServiceCall arch → Option (Word arch × Nat)
  | .serialPortWrite buffer bytes => some (buffer, bytes.toNat)
  | .buildConfigData buffer length => some (buffer, length.toNat)
  | .saveConfigData buffer length => some (buffer, length.toNat)
  | _ => none

theorem described_field {call : ServiceCall arch} {range : Word arch × Nat} (tells : described call = some range) :
    call.field ≠ .allocatePages ∧ call.field ≠ .freePages := by
  cases call <;> simp [described, ServiceCall.field] at tells ⊢

/-- The object a request hands to such a service. -/
def handed : Request arch → Option (Arg arch)
  | .uartWrite buf => some ⟨buf, false⟩
  | .buildCfgd buf => some buf
  | .saveCfgd buf => some ⟨buf, false⟩
  | _ => none

/-- The bytes are in the buffer of the object, which may be written if they may be. -/
def Covered (call : ServiceCall arch) (range : Word arch × Nat) (request : Request arch) : Prop :=
  ∃ arg info, handed request = some arg ∧ arg.object.buffer = some info ∧ range.1 = info.buf ∧
    range.2 ≤ info.len.toNat ∧ (call.field = .buildConfigData → arg.writable = true)

theorem buffer_raised {object : MpObj arch} {info : MpBufferInfo arch} (found : mpGetBufferRaise object = .ok info) :
    object.buffer = some info := by
  unfold mpGetBufferRaise at found
  split at found
  next there => rw [there, Except.ok.inj found]
  next => cases found

theorem buffer_raised_rw {arg : Arg arch} {info : MpBufferInfo arch} (found : mpGetBufferRaiseRw arg = .ok info) :
    arg.writable = true ∧ arg.object.buffer = some info := by
  unfold mpGetBufferRaiseRw at found
  split at found
  next writable => exact ⟨writable, buffer_raised found⟩
  next => cases found

/-- A length that does not fit in 32 bits is cut, never rounded up. -/
theorem cut_length_le (length : Word arch) : (length.setWidth 32).toNat ≤ length.toNat := by
  rw [BitVec.toNat_setWidth]
  exact Nat.mod_le _ _

theorem requested_covered {request : Request arch} {call : ServiceCall arch} (made : requested memory request call)
    {range : Word arch × Nat} (tells : described call = some range) : Covered call range request := by
  cases request with
  | uartWrite buf =>
    obtain ⟨info, found, rfl⟩ := made
    cases tells
    exact ⟨_, info, rfl, buffer_raised found, rfl, le_rfl, nofun⟩
  | buildCfgd buf =>
    obtain ⟨info, found, rfl⟩ := made
    cases tells
    obtain ⟨writable, buffer⟩ := buffer_raised_rw found
    exact ⟨_, info, rfl, buffer, rfl, cut_length_le _, fun _ => writable⟩
  | saveCfgd buf =>
    obtain ⟨info, found, rfl⟩ := made
    cases tells
    exact ⟨_, info, rfl, buffer_raised found, rfl, cut_length_le _, nofun⟩
  | consoleInit icol irow =>
    obtain ⟨_, _, _, _, rfl⟩ := made
    cases tells
  | fbBlt buf icol =>
    obtain ⟨_, _, rfl⟩ := made
    cases tells
  | getch key => rcases made with rfl | rfl <;> cases tells
  | loadFile path allocates => obtain ⟨_, _, rfl | ⟨_, _, _, rfl⟩⟩ := made <;> cases tells
  | reboot itype =>
    obtain ⟨_, _, rfl⟩ := made
    cases tells
  | poll pollFlags =>
    obtain ⟨_, rfl⟩ := made
    cases tells
  | delayMs ms =>
    obtain ⟨_, _, rfl⟩ := made
    cases tells
  | delayUs us =>
    obtain ⟨_, _, rfl⟩ := made
    cases tells
  | print text | printError text | rxChr | moveCursorBack stack pos | eraseLineFromCursor count =>
    obtain rfl := made
    cases tells

end Addresses

section Requests

variable (firmware : Firmware arch) (memory : Memory)

/-- The requests a script makes when it is run from a state. -/
def asked : Session arch → Payload arch → List (Request arch)
  | .ask request next caught, payload =>
    request :: match (attempt (request.observed firmware memory)).exec payload with
      | (.ok (.ok value), after) => asked (next value) after
      | (.ok (.error error), after) => asked (caught error) after
      | (.error _, _) => []
  | _, _ => []

variable (report : MpException → List Text)

/-- The requests of scripts that are run one after the other. -/
def askedInTurn : List (Session arch) → Payload arch → List (Request arch)
  | [], _ => []
  | script :: rest, payload =>
    asked firmware memory script payload ++ match (Session.doStr firmware memory report script).exec payload with
      | (.ok _, after) => askedInTurn rest after
      | (.error _, _) => []

/-- The requests of a whole run, which begins with the allocation of the heap. -/
def requestsMade (startScript : Session arch) (lines : List (Session arch)) (services : SblService) : List (Request arch) :=
  match (service firmware (.allocatePages (memory.sizeToPages heapSize))).exec ⟨services, [], []⟩ with
  | (.ok _, after) => askedInTurn firmware memory report (startScript :: lines) after
  | (.error _, _) => []

/-- Calls that come from these requests, or print. -/
def MadeBy (requests : List (Request arch)) (call : ServiceCall arch) : Prop :=
  (∃ request ∈ requests, requested memory request call) ∨ call = .debugPrint ∨ ∃ text, call = .consoleWrite text

variable {firmware memory report}

theorem MadeBy.left {requests more : List (Request arch)} {call : ServiceCall arch} (made : MadeBy memory requests call) :
    MadeBy memory (requests ++ more) call :=
  made.imp_left fun ⟨request, member, asks⟩ => ⟨request, List.mem_append_left more member, asks⟩

theorem MadeBy.right {requests more : List (Request arch)} {call : ServiceCall arch} (made : MadeBy memory more call) :
    MadeBy memory (requests ++ more) call :=
  made.imp_left fun ⟨request, member, asks⟩ => ⟨request, List.mem_append_right requests member, asks⟩

theorem MadeBy.later {first : Request arch} {more : List (Request arch)} {call : ServiceCall arch}
    (made : MadeBy memory more call) : MadeBy memory (first :: more) call := @MadeBy.right _ memory [first] more call made

theorem prints_made {requests : List (Request arch)} (text : Text) :
    Allows firmware (extending (MadeBy memory requests)) (.consoleWrite text) :=
  service_extends (Or.inr (Or.inr ⟨text, rfl⟩))

theorem asserts_made {requests : List (Request arch)} :
    Allows firmware (extending (MadeBy memory requests)) .debugPrint :=
  service_extends (Or.inr (Or.inl rfl))

theorem attempted_made (request : Request arch) :
    Within (extending (MadeBy memory [request])) (attempt (request.observed firmware memory)) := by
  apply attempt_within
  apply observed_within
  · exact fun call made => service_extends (Or.inl ⟨request, List.mem_singleton_self request, made⟩)
  · exact note_extends request

/-- What a script calls comes from the requests it makes on its way. -/
theorem run_made (script : Session arch) (payload : Payload arch) :
    Extends (MadeBy memory (asked firmware memory script payload)) payload ((script.run firmware memory).exec payload).2 := by
  induction script generalizing payload with
  | done => exact (extending _).refl payload
  | raise error => exact (extending _).refl payload
  | assertion => exact Within.bind asserts_made (fun _ => Within.throw _) payload
  | uncaught => exact Within.bind (print_within (prints_made _)) (fun _ => Within.throw _) payload
  | ask request next caught nextMade caughtMade =>
    have first : Extends (MadeBy memory (asked firmware memory (.ask request next caught) payload)) payload
        ((attempt (request.observed firmware memory)).exec payload).2 := by
      rw [asked]
      exact Extends.mono (attempted_made request payload) fun _ => MadeBy.left
    rw [Session.run]
    refine (extending _).bind_from first fun outcome after ran => ?_
    rw [asked, ran]
    cases outcome with
    | ok value => exact (nextMade value after).mono fun _ => MadeBy.later
    | error error => exact (caughtMade error after).mono fun _ => MadeBy.later

/-- A caught exception leaves the state as it is. -/
theorem attempt_state {α : Type} (body : PayloadRun arch α) (payload : Payload arch) :
    ((attempt body).exec payload).2 = (body.exec payload).2 := by
  unfold attempt
  rw [exec_tryCatch, exec_map]
  cases body.exec payload with
  | mk result after =>
    cases result with
    | ok value => rfl
    | error stop => cases stop <;> rfl

theorem doStr_made (script : Session arch) (payload : Payload arch) :
    Extends (MadeBy memory (asked firmware memory script payload)) payload
      ((Session.doStr firmware memory report script).exec payload).2 := by
  have ran := @run_made _ firmware memory script payload
  rw [← attempt_state] at ran
  refine (extending _).bind_from ran fun outcome after _ => ?_
  cases outcome with
  | ok value => exact (extending _).refl after
  | error error => exact Within.forM (fun text _ => print_within (prints_made text)) after

theorem inTurn_made (scripts : List (Session arch)) (payload : Payload arch) :
    Extends (MadeBy memory (askedInTurn firmware memory report scripts payload)) payload
      ((scripts.forM (Session.doStr firmware memory report)).exec payload).2 := by
  induction scripts generalizing payload with
  | nil => exact (extending _).refl payload
  | cons script rest ih =>
    have first : Extends (MadeBy memory (askedInTurn firmware memory report (script :: rest) payload)) payload
        ((Session.doStr firmware memory report script).exec payload).2 :=
      (doStr_made script payload).mono fun _ => MadeBy.left
    refine (extending _).bind_from first fun value after ran => ?_
    rw [askedInTurn, ran]
    exact (ih after).mono fun _ => MadeBy.right

theorem asked_asks {script : Session arch} {payload : Payload arch} {request : Request arch}
    (member : request ∈ asked firmware memory script payload) : Asks (· = request) script := by
  induction script generalizing payload with
  | done | raise | assertion | uncaught => cases member
  | ask other next caught nextAsks caughtAsks =>
    rw [asked] at member
    rcases List.mem_cons.mp member with rfl | later
    · exact Asks.now rfl
    split at later
    next value after _ => exact Asks.next value (nextAsks value later)
    next error after _ => exact Asks.caught error (caughtAsks error later)
    next => cases later

theorem inTurn_asks {scripts : List (Session arch)} {payload : Payload arch} {request : Request arch}
    (member : request ∈ askedInTurn firmware memory report scripts payload) :
    ∃ script ∈ scripts, Asks (· = request) script := by
  induction scripts generalizing payload with
  | nil => cases member
  | cons script rest ih =>
    rw [askedInTurn] at member
    rcases List.mem_append.mp member with here | later
    · exact ⟨script, List.mem_cons_self, asked_asks here⟩
    split at later
    next value after _ =>
      obtain ⟨other, among, asks⟩ := ih later
      exact ⟨other, List.mem_cons_of_mem script among, asks⟩
    next => cases later

variable (firmware memory report) (startScript : Session arch) (lines : List (Session arch))

/-- Between the allocation of the heap and its release, a run calls what its requests
come to. -/
theorem main_made (services : SblService) :
    Extends (fun call => MadeBy memory (requestsMade firmware memory report startScript lines services) call ∨
        call.field = .allocatePages ∨ call.field = .freePages) ⟨services, [], []⟩
      ((Session.main firmware memory report startScript lines).exec ⟨services, [], []⟩).2 := by
  let expected := fun call : ServiceCall arch =>
    MadeBy memory (requestsMade firmware memory report startScript lines services) call ∨
      call.field = .allocatePages ∨ call.field = .freePages
  have first : Allows firmware (extending expected) (.allocatePages (memory.sizeToPages heapSize)) :=
    service_extends (Or.inr (Or.inl rfl))
  have last (heap : Reply arch) : Allows firmware (extending expected) (.freePages heap.buffer (memory.sizeToPages heapSize)) :=
    service_extends (Or.inr (Or.inr rfl))
  rw [main_eq]
  refine (extending expected).bind_from (first _) fun heap after ran => ?_
  have requests : requestsMade firmware memory report startScript lines services =
      askedInTurn firmware memory report (startScript :: lines) after := by rw [requestsMade, ran]
  have scripted : Extends expected after ((scripts firmware memory report startScript lines).exec after).2 := by
    have made := @inTurn_made _ firmware memory report (startScript :: lines) after
    rw [← requests] at made
    exact made.mono fun _ => Or.inl
  exact (extending expected).bind_from scripted fun _ later _ => service_map_within (last heap) (fun _ => PUnit.unit) later

/-- In every run, a service that is handed data is told of bytes inside the buffer of
an object that a request of the run passed, and one that may change them of a writable
one. -/
theorem described_bytes_owned (services : SblService) :
    ∀ entry ∈ ((Session.main firmware memory report startScript lines).exec ⟨services, [], []⟩).2.calls,
      ∀ range ∈ described entry.1, ∃ request ∈ requestsMade firmware memory report startScript lines services,
        Covered entry.1 range request ∧ ∃ script ∈ startScript :: lines, Asks (· = request) script := by
  intro entry member range tells
  obtain ⟨more, all, same⟩ := (main_made firmware memory report startScript lines services).calls
  rw [same, List.nil_append] at member
  obtain ⟨call, inside, rfl⟩ := List.mem_map.mp member
  rcases all call inside with (⟨request, among, made⟩ | rfl | ⟨text, rfl⟩) | allocated | freed
  · refine ⟨request, among, requested_covered memory made tells, ?_⟩
    unfold requestsMade at among
    split at among
    next heap after _ => exact inTurn_asks among
    next => cases among
  · cases tells
  · cases tells
  · exact absurd allocated (described_field tells).1
  · exact absurd freed (described_field tells).2

end Requests

/-- Firmware in which every service succeeds and stores nothing. -/
def quietFirmware : Firmware .x64 := fun _ => some ⟨0, false, [], 0, 0⟩

def fiveBytes : MpObj .x64 := ⟨some ⟨0x1000, 5⟩, none, none⟩

def writeOnce : Session .x64 := .ask (.uartWrite fiveBytes) (fun _ => .done) fun _ => .done

theorem five_bytes_owned :
    ∃ request ∈ requestsMade quietFirmware ⟨fun _ => 1, false⟩ (fun _ => []) .done [writeOnce] fun _ => 7,
      Covered (.serialPortWrite 0x1000 5) (0x1000, 5) request ∧
        ∃ script ∈ [Session.done, writeOnce], Asks (· = request) script := by
  have calls : ((Session.main quietFirmware ⟨fun _ => 1, false⟩ (fun _ => []) .done [writeOnce]).exec
      ⟨fun _ => 7, [], []⟩).2.calls =
        [(.allocatePages 1, 7), (.serialPortWrite 0x1000 5, 7), (.freePages 0 1, 7)] := by decide +kernel
  exact described_bytes_owned quietFirmware ⟨fun _ => 1, false⟩ (fun _ => []) .done [writeOnce] (fun _ => 7)
    (.serialPortWrite 0x1000 5, 7) (calls ▸ List.mem_cons_of_mem _ List.mem_cons_self) (0x1000, 5) rfl

end SblPayload.Proofs.SessionCalls
