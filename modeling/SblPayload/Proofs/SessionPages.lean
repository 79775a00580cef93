import SblPayload.Library.Transcript
import SblPayload.Proofs.PageAccounting
import SblPayload.Proofs.SessionLogic

/-! The pages of a whole session, in the account that the calls of the services keep.
The run that follows pages only is a faithful view of it, and nothing is given back
that is not held. -/

namespace SblPayload.Proofs.SessionPages
open Library MicroPython Script SessionLogic PageAccounting

variable {arch : Arch} {firmware : Firmware arch} {memory : Memory}

/-- NULL holds no pages. -/
def obtainedAt (buffer : Word arch) (pages : Nat) : List (Ledger.Entry (Word arch × Nat)) :=
  if buffer = 0 then [] else [.obtained (buffer, pages)]

def booking (memory : Memory) : ServiceCall arch × Option (Reply arch) → List (Ledger.Entry (Word arch × Nat))
  | (.allocatePages pages, some reply) => obtainedAt reply.buffer pages
  | (.loadFile _, some reply) => obtainedAt reply.buffer (memory.sizeToPages reply.length)
  | (.freePages buffer pages, _) => [.released (buffer, pages)]
  | _ => []

def image : ServiceCall arch × Option (Reply arch) → Option (Text × LoadFile arch)
  | (.loadFile path, some reply) => some (path, ⟨reply.ret, reply.buffer, reply.length⟩)
  | _ => none

variable (firmware memory)

/-- The account of all calls made so far. -/
def entries (payload : Payload arch) : List (Ledger.Entry (Word arch × Nat)) :=
  (transcript firmware (history payload)).flatMap (booking memory)

/-- The files that were loaded so far, with what the service answered. -/
def images (payload : Payload arch) : List (Text × LoadFile arch) :=
  (transcript firmware (history payload)).filterMap image

variable {firmware memory}

theorem entries_called (payload : Payload arch) (call : ServiceCall arch) :
    entries firmware memory (called payload call) =
      entries firmware memory payload ++ booking memory (call, firmware (history payload ++ [call])) := by
  unfold entries
  rw [history_called, transcript_snoc, List.flatMap_append, List.flatMap_singleton]

theorem images_called (payload : Payload arch) (call : ServiceCall arch) :
    images firmware (called payload call) =
      images firmware payload ++ (image (call, firmware (history payload ++ [call]))).toList := by
  unfold images
  rw [history_called, transcript_snoc, List.filterMap_append]
  congr 1

section Others

def pageServices : List SblField := [.allocatePages, .loadFile, .freePages]

theorem booking_other {call : ServiceCall arch} (other : call.field ∉ pageServices) (reply : Option (Reply arch)) :
    booking memory (call, reply) = [] ∧ image (call, reply) = none := by
  cases call with
  | allocatePages pages | loadFile path | freePages buffer pages => simp [pageServices, ServiceCall.field] at other
  | _ => exact ⟨rfl, rfl⟩

/-- Neither the account nor the files loaded are other than they were. -/
structure Steady (firmware : Firmware arch) (memory : Memory) (before after : Payload arch) : Prop where
  entries : entries firmware memory after = entries firmware memory before
  images : images firmware after = images firmware before

variable (firmware memory) in
def steady : Changes (Payload arch) where
  allowed := Steady firmware memory
  refl _ := ⟨rfl, rfl⟩
  trans first second := ⟨second.entries.trans first.entries, second.images.trans first.images⟩

theorem other_steady {call : ServiceCall arch} (other : call.field ∉ pageServices) :
    Allows firmware (steady firmware memory) call := by
  intro payload
  have kept : Steady firmware memory payload (called payload call) := by
    obtain ⟨booked, loaded⟩ := booking_other other (firmware (history payload ++ [call]))
    constructor
    · rw [entries_called, booked, List.append_nil]
    · rw [images_called, loaded, Option.toList_none, List.append_nil]
  rw [exec_service]
  split
  · exact kept
  · exact kept

def loads : Request arch → Bool
  | .loadFile _ _ => true
  | _ => false

theorem requested_other {request : Request arch} (other : loads request = false) {call : ServiceCall arch}
    (made : requested memory request call) : call.field ∉ pageServices := by
  have reached := requested_service made
  cases request with
  | loadFile path allocates => cases other
  | getch key =>
    rcases List.mem_pair.mp reached with same | same
    · simp [pageServices, same]
    · simp [pageServices, same]
  | _ => simp [pageServices, List.mem_singleton.mp reached]

theorem observed_steady {request : Request arch} (other : loads request = false) :
    Within (steady firmware memory) (request.observed firmware memory) := by
  apply observed_within
  · exact fun call made => other_steady (requested_other other made)
  · exact fun value payload => ⟨rfl, rfl⟩

end Others

section Loading

/-- What a call of `pyb.load_file` adds to the account. -/
def posted (memory : Memory) (call : LoadCall arch) : List (Ledger.Entry (Word arch × Nat)) :=
  if call.path.str.isSome ∧ call.loaded.buffer ≠ 0 then
    let resource := (call.loaded.buffer, memory.sizeToPages call.loaded.length)
    if call.allocates then [.obtained resource, .released resource] else [.obtained resource]
  else []

theorem pagesAfter_posted (pages : Ledger (Word arch × Nat)) (call : LoadCall arch) :
    pagesAfter memory pages call = pages.post (posted memory call) := by
  unfold pagesAfter posted
  by_cases opened : call.path.str.isSome ∧ call.loaded.buffer ≠ 0
  · rw [if_pos opened, if_pos opened]
    cases call.allocates with
    | true => rfl
    | false => rfl
  · rw [if_neg opened, if_neg opened]
    rfl

def opened (call : LoadCall arch) : Option (Text × LoadFile arch) := call.path.str.map fun name => (name, call.loaded)

/-- The later record is the earlier one and one call of `pyb.load_file`. -/
structure Loads (firmware : Firmware arch) (memory : Memory) (before : Payload arch) (call : LoadCall arch)
    (after : Payload arch) : Prop where
  entries : entries firmware memory after = entries firmware memory before ++ posted memory call
  images : images firmware after = images firmware before ++ (opened call).toList

variable (firmware memory) in
def Loaded (before : Payload arch) (allocates returned : Bool) (after : Payload arch) : Prop :=
  ∃ call, call.allocates = allocates ∧ returns call = returned ∧ Loads firmware memory before call after

variable (firmware memory) in
/-- A service that does not return may have been called for the file or for its pages. -/
def LoadEnds {α : Type} (before : Payload arch) (allocates : Bool) (ended : Except Stop α × Payload arch) : Prop :=
  Ends (fun _ after => Loaded firmware memory before allocates true after)
    (fun stop after => (∃ error, stop = .raised error ∧ Loaded firmware memory before allocates false after) ∨
      stop = .gone ∧ ∃ call, Loads firmware memory before call after) ended

section Answered
variable {payload : Payload arch} {name : Text} {reply : Reply arch}
  (answered : firmware (history payload ++ [.loadFile name]) = some reply)
include answered

theorem entries_loaded : entries firmware memory (called payload (.loadFile name)) =
    entries firmware memory payload ++ obtainedAt reply.buffer (memory.sizeToPages reply.length) := by
  rw [entries_called, answered]
  rfl

theorem images_loaded : images firmware (called payload (.loadFile name)) =
    images firmware payload ++ [(name, ⟨reply.ret, reply.buffer, reply.length⟩)] := by
  rw [images_called, answered]
  rfl

variable {path : MpObj arch} (named : path.str = some name)
include named

/-- The object with the bytes is not made: the pages stay. -/
theorem Loads.kept (allocates : Bool) (either : allocates = false ∨ reply.buffer = 0) :
    Loads firmware memory payload ⟨path, ⟨reply.ret, reply.buffer, reply.length⟩, allocates⟩
      (called payload (.loadFile name)) := by
  have path : path.str.isSome := by rw [named]; rfl
  constructor
  · rw [entries_loaded answered]
    unfold posted obtainedAt
    by_cases null : reply.buffer = 0
    · rw [if_pos null, if_neg fun both => both.2 null]
    · rw [if_neg null, if_pos ⟨path, null⟩, either.resolve_right null]
      rfl
  · rw [images_loaded answered]
    unfold opened
    rw [named]
    rfl

/-- The pages are given back. -/
theorem Loads.freed (there : reply.buffer ≠ 0) :
    Loads firmware memory payload ⟨path, ⟨reply.ret, reply.buffer, reply.length⟩, true⟩
      (called (called payload (.loadFile name)) (.freePages reply.buffer (memory.sizeToPages reply.length))) := by
  have path : path.str.isSome := by rw [named]; rfl
  constructor
  · rw [entries_called, entries_loaded answered]
    unfold posted obtainedAt
    rw [if_neg there, if_pos ⟨path, there⟩, List.append_assoc]
    rfl
  · rw [images_called, images_loaded answered]
    unfold opened
    rw [named]
    exact List.append_nil _

end Answered

theorem pybLoadFile_ends (path : MpObj arch) (allocates : Bool) (payload : Payload arch) :
    LoadEnds firmware memory payload allocates ((Session.pybLoadFile firmware memory path allocates).exec payload) := by
  unfold Session.pybLoadFile mpObjStrGetStr
  cases named : path.str with
  | none =>
    refine Or.inl ⟨.typeError, rfl, ⟨path, ⟨0, 0, 0⟩, allocates⟩, rfl, ?_, ?_⟩
    · simp [returns, named]
    · constructor
      · simp [posted, named]
      · simp [opened, named]
  | some name =>
    change LoadEnds firmware memory payload allocates (Script.exec (service firmware (.loadFile name) >>= _) payload)
    rw [exec_bind]
    cases answered : firmware (history payload ++ [.loadFile name]) with
    | none =>
      rw [service_gone answered]
      refine Or.inr ⟨rfl, ⟨⟨none, none, none⟩, ⟨0, 0, 0⟩, allocates⟩, ?_, ?_⟩
      · rw [entries_called, answered]
        rfl
      · rw [images_called, answered]
        rfl
    | some reply =>
      rw [service_answered answered]
      dsimp only
      rw [exec_bind, exec_ensure]
      cases allocates with
      | false =>
        refine Or.inl ⟨.memoryError, rfl, _, rfl, ?_, Loads.kept answered named false (Or.inl rfl)⟩
        exact Bool.and_false _
      | true =>
        have returned : returns ⟨path, ⟨reply.ret, reply.buffer, reply.length⟩, true⟩ = true := by
          rw [returns, named]
          rfl
        by_cases null : reply.buffer = 0
        · rw [if_neg (not_not_intro null)]
          exact ⟨_, rfl, returned, Loads.kept answered named true (Or.inr null)⟩
        · rw [if_pos null, if_pos rfl]
          dsimp only
          rw [exec_bind]
          let release := ServiceCall.freePages reply.buffer (memory.sizeToPages reply.length)
          cases freed : firmware (history (called payload (.loadFile name)) ++ [release]) with
          | none =>
            rw [service_gone freed]
            exact Or.inr ⟨rfl, _, Loads.freed answered named null⟩
          | some done =>
            rw [service_answered freed]
            exact ⟨_, rfl, returned, Loads.freed answered named null⟩

theorem observed_ends (path : MpObj arch) (allocates : Bool) (payload : Payload arch) :
    LoadEnds firmware memory payload allocates
      ((Request.observed firmware memory (.loadFile path allocates)).exec payload) := by
  have outcome := @pybLoadFile_ends _ firmware memory path allocates payload
  unfold Request.observed Request.perform
  rw [exec_bind, exec_map]
  cases ended : (Session.pybLoadFile firmware memory path allocates).exec payload with
  | mk result after =>
    rw [ended] at outcome
    cases result with
    | error stop => exact outcome
    | ok length =>
      obtain ⟨call, allocates, returned, whole⟩ := outcome
      exact ⟨call, allocates, returned, whole.entries, whole.images⟩

end Loading

section Following

variable (firmware memory) in
/-- The later record is the earlier one and these calls of `pyb.load_file`. -/
structure Followed (before after : Payload arch) (calls : List (LoadCall arch)) : Prop where
  entries : entries firmware memory after = entries firmware memory before ++ calls.flatMap (posted memory)
  images : images firmware after = images firmware before ++ calls.filterMap opened

variable {before middle last : Payload arch} {call : LoadCall arch} {calls more : List (LoadCall arch)}

theorem Followed.none (kept : Steady firmware memory before last) : Followed firmware memory before last [] :=
  ⟨kept.entries.trans (List.append_nil _).symm, kept.images.trans (List.append_nil _).symm⟩

theorem Followed.one (loads : Loads firmware memory before call last) : Followed firmware memory before last [call] := by
  constructor
  · rw [loads.entries, List.flatMap_singleton]
  · rw [loads.images]
    congr 1

theorem Followed.append (first : Followed firmware memory before middle calls)
    (second : Followed firmware memory middle last more) : Followed firmware memory before last (calls ++ more) := by
  constructor
  · rw [second.entries, first.entries, List.flatMap_append, List.append_assoc]
  · rw [second.images, first.images, List.filterMap_append, List.append_assoc]

/-- What `attempt` makes of the end of its body. -/
def attempted {α : Type} : Except Stop α → Except Stop (Except MpException α)
  | .ok value => .ok (.ok value)
  | .error (.raised error) => .ok (.error error)
  | .error stop => .error stop

theorem exec_attempt {α : Type} (body : PayloadRun arch α) (payload : Payload arch) :
    (attempt body).exec payload = (attempted (body.exec payload).1, (body.exec payload).2) := by
  unfold attempt
  rw [exec_tryCatch, exec_map]
  cases body.exec payload with
  | mk result after =>
    cases result with
    | ok value => rfl
    | error stop => cases stop <;> rfl

/-- After a dead loop nothing goes on. -/
theorem halted_not_attempted {α : Type} (call : ServiceCall arch) {outcome : Except MpException α} :
    attempted (Script.exec (service firmware call >>= fun _ => throw .deadLoop) before).1 ≠ .ok outcome := by
  rw [exec_bind]
  cases answered : firmware (history before ++ [call]) with
  | none =>
    rw [service_gone answered]
    exact nofun
  | some reply =>
    rw [service_answered answered]
    exact nofun

variable (firmware memory) in
/-- What a script that goes on did with files is what some activity does. -/
def Activates (script : Session arch) (before after : Payload arch) (activity : Activity arch) : Prop :=
  Followed firmware memory before after (callsMade activity) ∧
    ∀ call ∈ callsMade activity, ∃ path, Asks (· = .loadFile path call.allocates) script

theorem nlrJumpFail_eq : nlrJumpFail firmware =
    (service firmware (.consoleWrite "FATAL: uncaught NLR\n".toList) >>= fun _ => throw .deadLoop) := by
  unfold nlrJumpFail mpHalStdoutTxStrn
  simp only [bind_assoc, pure_bind]

/-- A request other than for a file does nothing that the activity does. -/
theorem Activates.after {request : Request arch} {next : Value arch → Session arch} {caught : MpException → Session arch}
    {script : Session arch} {activity : Activity arch} (kept : Steady firmware memory before middle)
    (rest : Activates firmware memory script middle last activity)
    (later : ∀ {kind}, Asks kind script → Asks kind (.ask request next caught)) :
    Activates firmware memory (.ask request next caught) before last activity := by
  refine ⟨(Followed.none kept).append rest.1, fun call member => ?_⟩
  obtain ⟨path, asks⟩ := rest.2 call member
  exact ⟨path, later asks⟩

theorem Activates.load {path : MpObj arch} {next : Value arch → Session arch} {caught : MpException → Session arch}
    {script : Session arch} {activity : Activity arch} (loads : Loads firmware memory before call middle)
    (rest : Activates firmware memory script middle last activity)
    (later : ∀ {kind}, Asks kind script → Asks kind (.ask (.loadFile path call.allocates) next caught)) :
    Activates firmware memory (.ask (.loadFile path call.allocates) next caught) before last
      (if returns call then .load call activity .done else .load call .done activity) := by
  have made : callsMade (if returns call then .load call activity .done else .load call .done activity) =
      call :: callsMade activity := by
    cases returned : returns call <;> simp [callsMade, returned]
  unfold Activates
  rw [made]
  refine ⟨(Followed.one loads).append rest.1, fun other member => ?_⟩
  rcases List.mem_cons.mp member with rfl | inner
  · exact ⟨path, Asks.now rfl⟩
  · obtain ⟨asked, asks⟩ := rest.2 other inner
    exact ⟨asked, later asks⟩

theorem run_followed (script : Session arch) {outcome : Except MpException PUnit}
    (went : attempted ((script.run firmware memory).exec before).1 = .ok outcome) :
    ∃ activity, Activates firmware memory script before ((script.run firmware memory).exec before).2 activity := by
  induction script generalizing before with
  | done => exact ⟨.done, Followed.none ⟨rfl, rfl⟩, fun _ none => absurd none List.not_mem_nil⟩
  | raise error => exact ⟨.done, Followed.none ⟨rfl, rfl⟩, fun _ none => absurd none List.not_mem_nil⟩
  | assertion => exact absurd went (halted_not_attempted .debugPrint)
  | uncaught =>
    rw [Session.run, nlrJumpFail_eq] at went
    exact absurd went (halted_not_attempted _)
  | ask request next caught nextFollowed caughtFollowed =>
    rw [Session.run, exec_bind, exec_attempt] at went ⊢
    cases asked : (request.observed firmware memory).exec before with
    | mk result middle =>
      rw [asked] at went
      dsimp only at went ⊢
      cases loaded : loads request with
      | false =>
        have kept : Steady firmware memory before middle := by
          have steady := @observed_steady _ firmware memory request loaded before
          rw [asked] at steady
          exact steady
        cases result with
        | ok value =>
          obtain ⟨activity, rest⟩ := nextFollowed value went
          exact ⟨activity, rest.after kept (Asks.next value)⟩
        | error stop =>
          cases stop with
          | raised error =>
            obtain ⟨activity, rest⟩ := caughtFollowed error went
            exact ⟨activity, rest.after kept (Asks.caught error)⟩
          | dividedByZero | deadLoop | gone => cases went
      | true =>
        cases request with
        | loadFile path allocates =>
          have ends := @observed_ends _ firmware memory path allocates before
          rw [asked] at ends
          cases result with
          | ok value =>
            obtain ⟨call, rfl, _, made⟩ := ends
            obtain ⟨activity, rest⟩ := nextFollowed value went
            exact ⟨_, rest.load made (Asks.next value)⟩
          | error stop =>
            rcases ends with ⟨error, rfl, call, rfl, _, made⟩ | ⟨rfl, _⟩
            · obtain ⟨activity, rest⟩ := caughtFollowed error went
              exact ⟨_, rest.load made (Asks.caught error)⟩
            · cases went
        | _ => cases loaded

variable {report : MpException → List Text} {startScript : Session arch} {lines : List (Session arch)}

theorem doStr_followed {script : Session arch}
    (returned : (Session.doStr firmware memory report script).exec before = (.ok ⟨⟩, last)) :
    ∃ activity, Activates firmware memory script before last activity := by
  unfold Session.doStr at returned
  rw [exec_bind, exec_attempt] at returned
  cases ended : attempted ((script.run firmware memory).exec before).1 with
  | error stop =>
    rw [ended] at returned
    cases returned
  | ok outcome =>
    obtain ⟨activity, followed, asks⟩ := run_followed script ended
    refine ⟨activity, ?_, asks⟩
    rw [ended] at returned
    cases outcome with
    | ok value =>
      cases returned
      exact followed
    | error error =>
      have prints : Within (steady firmware memory) ((report error).forM (mpHalStdoutTxStrn firmware)) :=
        Within.forM fun text _ => print_within (other_steady (by decide : SblField.consoleWrite ∉ pageServices))
      have kept := prints ((script.run firmware memory).exec before).2
      change Script.exec ((report error).forM (mpHalStdoutTxStrn firmware)) _ = _ at returned
      rw [returned] at kept
      exact List.append_nil (callsMade activity) ▸ followed.append (Followed.none kept)

/-- The lines of the REPL, one activity each. -/
theorem lines_followed (returned : (lines.forM (Session.doStr firmware memory report)).exec before = (.ok ⟨⟩, last)) :
    ∃ others : List (Activity arch), others.length = lines.length ∧
      Followed firmware memory before last (others.flatMap callsMade) ∧
      ∀ call ∈ others.flatMap callsMade, ∃ line ∈ lines, ∃ path, Asks (· = .loadFile path call.allocates) line := by
  induction lines generalizing before with
  | nil =>
    cases returned
    exact ⟨[], rfl, Followed.none ⟨rfl, rfl⟩, fun _ none => absurd none List.not_mem_nil⟩
  | cons line lines ih =>
    change Script.exec (Session.doStr firmware memory report line >>= fun _ => lines.forM (Session.doStr firmware memory report)) before = _
      at returned
    obtain ⟨_, middle, first, rest⟩ := exec_bind_returned returned
    obtain ⟨activity, followed, asks⟩ := doStr_followed first
    obtain ⟨others, count, later, asksLater⟩ := ih rest
    refine ⟨activity :: others, congrArg Nat.succ count, followed.append later, fun call member => ?_⟩
    rcases List.mem_append.mp member with here | there
    · obtain ⟨path, asked⟩ := asks call here
      exact ⟨line, List.mem_cons_self, path, asked⟩
    · obtain ⟨other, among, asked⟩ := asksLater call there
      exact ⟨other, List.mem_cons_of_mem line among, asked⟩

theorem scripts_followed (returned : (scripts firmware memory report startScript lines).exec before = (.ok ⟨⟩, last)) :
    ∃ script others, others.length = lines.length ∧ Followed firmware memory before last (runCalls script others) ∧
      ∀ call ∈ runCalls script others, ∃ line ∈ startScript :: lines, ∃ path,
        Asks (· = .loadFile path call.allocates) line := by
  obtain ⟨_, middle, first, rest⟩ := exec_bind_returned returned
  obtain ⟨activity, followed, asks⟩ := doStr_followed first
  obtain ⟨others, count, later, asksLater⟩ := lines_followed rest
  refine ⟨activity, others, count, followed.append later, fun call member => ?_⟩
  rcases List.mem_append.mp member with here | there
  · obtain ⟨path, asked⟩ := asks call here
    exact ⟨startScript, List.mem_cons_self, path, asked⟩
  · obtain ⟨line, among, asked⟩ := asksLater call there
    exact ⟨line, List.mem_cons_of_mem startScript among, asked⟩

end Following

section Stopped

variable (firmware memory) in
/-- Wherever it stops, a run has come to some calls of `pyb.load_file`. -/
def following : Changes (Payload arch) where
  allowed before after := ∃ calls, Followed firmware memory before after calls
  refl _ := ⟨[], Followed.none ⟨rfl, rfl⟩⟩
  trans := by
    rintro first second third ⟨calls, earlier⟩ ⟨more, later⟩
    exact ⟨calls ++ more, earlier.append later⟩

theorem steady_follows {α : Type} {script : PayloadRun arch α} (kept : Within (steady firmware memory) script) :
    Within (following firmware memory) script := fun payload => ⟨[], Followed.none (kept payload)⟩

theorem observed_follows (request : Request arch) :
    Within (following firmware memory) (request.observed firmware memory) := by
  cases loaded : loads request with
  | false => exact steady_follows (observed_steady loaded)
  | true =>
    cases request with
    | loadFile path allocates =>
      intro payload
      have ends := @observed_ends _ firmware memory path allocates payload
      cases asked : (Request.observed firmware memory (.loadFile path allocates)).exec payload with
      | mk result after =>
        rw [asked] at ends
        cases result with
        | ok value =>
          obtain ⟨call, _, _, made⟩ := ends
          exact ⟨[call], Followed.one made⟩
        | error stop =>
          rcases ends with ⟨_, _, call, _, _, made⟩ | ⟨_, call, made⟩
          · exact ⟨[call], Followed.one made⟩
          · exact ⟨[call], Followed.one made⟩
    | _ => cases loaded

theorem scripts_follow {report : MpException → List Text} {startScript : Session arch} {lines : List (Session arch)} :
    Within (following firmware memory) (scripts firmware memory report startScript lines) := by
  apply scripts_within
  · exact steady_follows (other_steady (by decide : SblField.debugPrint ∉ pageServices))
  · exact fun text => steady_follows (other_steady (by decide : SblField.consoleWrite ∉ pageServices))
  · exact fun script member request asks => observed_follows request

end Stopped

section Account

variable {ledger : Ledger (Word arch × Nat)}

/-- A call obtains at most one image, and gives back no other. -/
theorem posted_cases (memory : Memory) (call : LoadCall arch) : posted memory call = [] ∨
    (call.allocates = false ∧ ∃ resource, posted memory call = [.obtained resource]) ∨
      ∃ resource, posted memory call = [.obtained resource, .released resource] := by
  unfold posted
  by_cases opened : call.path.str.isSome ∧ call.loaded.buffer ≠ 0
  · rw [if_pos opened]
    cases call.allocates with
    | true => exact Or.inr (Or.inr ⟨_, rfl⟩)
    | false => exact Or.inr (Or.inl ⟨rfl, _, rfl⟩)
  · rw [if_neg opened]
    exact Or.inl rfl

theorem covered_posted (call : LoadCall arch) : ledger.Covered (posted memory call) := by
  rcases posted_cases memory call with none | ⟨_, resource, kept⟩ | ⟨resource, freed⟩
  · rw [none]
    trivial
  · rw [kept]
    trivial
  · rw [freed]
    exact ⟨Multiset.mem_cons_self _ _, trivial⟩

theorem held_le_posted (call : LoadCall arch) : ledger.held ≤ (ledger.post (posted memory call)).held := by
  rcases posted_cases memory call with none | ⟨_, resource, kept⟩ | ⟨resource, freed⟩
  · rw [none]
    exact le_rfl
  · rw [kept]
    exact Multiset.le_cons_self _ _
  · rw [freed]
    exact (Ledger.obtain_release ledger resource).ge

theorem held_posted {call : LoadCall arch} (room : call.allocates = true) :
    (ledger.post (posted memory call)).held = ledger.held := by
  rcases posted_cases memory call with none | ⟨without, _⟩ | ⟨resource, freed⟩
  · rw [none]
    rfl
  · rw [room] at without
    cases without
  · rw [freed]
    exact Ledger.obtain_release ledger resource

theorem calls_covered (calls : List (LoadCall arch)) : ledger.Covered (calls.flatMap (posted memory)) ∧
    ledger.held ≤ (ledger.post (calls.flatMap (posted memory))).held := by
  induction calls generalizing ledger with
  | nil => exact ⟨trivial, le_rfl⟩
  | cons call calls ih =>
    rw [List.flatMap_cons, Ledger.covered_append, Ledger.post_append]
    exact ⟨⟨covered_posted call, ih.1⟩, (held_le_posted call).trans ih.2⟩

theorem calls_held {calls : List (LoadCall arch)} (room : ∀ call ∈ calls, call.allocates = true) :
    (ledger.post (calls.flatMap (posted memory))).held = ledger.held := by
  induction calls generalizing ledger with
  | nil => rfl
  | cons call calls ih =>
    rw [List.flatMap_cons, Ledger.post_append, ih fun other member => room other (List.mem_cons_of_mem call member)]
    exact held_posted (room call List.mem_cons_self)

/-- The heap is held until it is given back. -/
theorem framed_covered (heap : Word arch × Nat) (calls : List (LoadCall arch)) :
    Ledger.empty.Covered (.obtained heap :: (calls.flatMap (posted memory) ++ [.released heap])) := by
  change (Ledger.empty.obtain heap).Covered _
  rw [Ledger.covered_append]
  have start : heap ∈ (Ledger.empty.obtain heap).held := Multiset.mem_cons_self heap 0
  obtain ⟨covered, kept⟩ := @calls_covered _ memory (Ledger.empty.obtain heap) calls
  exact ⟨covered, Multiset.mem_of_le kept start, trivial⟩

theorem framed_settled (heap : Word arch × Nat) {calls : List (LoadCall arch)}
    (room : ∀ call ∈ calls, call.allocates = true) :
    (Ledger.empty.post (.obtained heap :: (calls.flatMap (posted memory) ++ [.released heap]))).held = 0 := by
  change (Ledger.post (Ledger.empty.obtain heap) (_ ++ _)).held = 0
  rw [Ledger.post_append]
  change Multiset.erase (Ledger.post (Ledger.empty.obtain heap) _).held heap = 0
  rw [calls_held room]
  exact Multiset.erase_cons_head heap 0

end Account

theorem pages_foldl (calls : List (LoadCall arch)) (services : Services arch) :
    (calls.foldl (after memory) services).pages = services.pages.post (calls.flatMap (posted memory)) := by
  induction calls generalizing services with
  | nil => rfl
  | cons call calls ih =>
    rw [List.foldl_cons, ih, List.flatMap_cons, Ledger.post_append, ← pagesAfter_posted]
    rfl

section Whole

variable (firmware memory) (report : MpException → List Text) (startScript : Session arch) (lines : List (Session arch))
  (services : SblService)

theorem entries_started {heap : Reply arch} {pages : Nat} (allocated : firmware [.allocatePages pages] = some heap)
    (there : heap.buffer ≠ 0) : entries firmware memory (called ⟨services, [], []⟩ (.allocatePages pages)) =
      [.obtained (heap.buffer, pages)] := by
  have answered : firmware (history (⟨services, [], []⟩ : Payload arch) ++ [.allocatePages pages]) = some heap := allocated
  rw [entries_called, answered]
  exact if_neg there

/-- The account of a run that returns: the heap, the files, the heap. -/
theorem main_followed {heap : Reply arch} {last : Payload arch}
    (allocated : firmware [.allocatePages (memory.sizeToPages heapSize)] = some heap) (there : heap.buffer ≠ 0)
    (returned : (Session.main firmware memory report startScript lines).exec ⟨services, [], []⟩ = (.ok ⟨⟩, last)) :
    ∃ script others, others.length = lines.length ∧
      entries firmware memory last = .obtained (heap.buffer, memory.sizeToPages heapSize) ::
        ((runCalls script others).flatMap (posted memory) ++ [.released (heap.buffer, memory.sizeToPages heapSize)]) ∧
      images firmware last = (runCalls script others).filterMap opened ∧
      ∀ call ∈ runCalls script others, ∃ line ∈ startScript :: lines, ∃ path,
        Asks (· = .loadFile path call.allocates) line := by
  rw [main_eq] at returned
  obtain ⟨reply, begun, first, rest⟩ := exec_bind_returned returned
  obtain ⟨answered, rfl⟩ := service_returned first
  obtain rfl : heap = reply := Option.some.inj (allocated.symm.trans answered)
  obtain ⟨_, middle, ran, rest⟩ := exec_bind_returned rest
  obtain ⟨script, others, count, followed, asks⟩ := scripts_followed ran
  obtain ⟨_, freed, gave, ended⟩ := exec_bind_returned rest
  obtain ⟨_, rfl⟩ := service_returned gave
  cases ended
  refine ⟨script, others, count, ?_, ?_, asks⟩
  · rw [entries_called, followed.entries, entries_started firmware memory services allocated there, List.append_assoc]
    rfl
  · rw [images_called, followed.images, images_called]
    exact List.append_nil _

/-- A session that returns has loaded the files, and left the account, that a run of
`main` for these pages alone loads and leaves. -/
theorem session_refines_main {heap : Reply arch} {last : Payload arch}
    (allocated : firmware [.allocatePages (memory.sizeToPages heapSize)] = some heap) (there : heap.buffer ≠ 0)
    (returned : (Session.main firmware memory report startScript lines).exec ⟨services, [], []⟩ = (.ok ⟨⟩, last)) :
    ∃ script others final, others.length = lines.length ∧
      (MicroPython.main memory ⟨heap.buffer, there⟩ script others).exec fresh = (.ok ⟨⟩, final) ∧
      final.pages = Ledger.empty.post (entries firmware memory last) ∧
      (runCalls script others).filterMap opened = images firmware last := by
  obtain ⟨script, others, count, account, loaded, _⟩ :=
    main_followed firmware memory report startScript lines services allocated there returned
  refine ⟨script, others, _, count, exec_main ⟨heap.buffer, there⟩ script others fresh, ?_, loaded.symm⟩
  dsimp only
  rw [account, pages_foldl]
  change _ = Ledger.post (Ledger.empty.obtain _) (_ ++ _)
  rw [Ledger.post_append]
  rfl

/-- After the heap is there, wherever the run stops. -/
theorem started_covered {heap : Reply arch} {pages : Nat} {payload : Payload arch}
    (started : entries firmware memory payload = [.obtained (heap.buffer, pages)]) :
    Ledger.empty.Covered (entries firmware memory (Script.exec (do
      scripts firmware memory report startScript lines
      let _ ← service firmware (.freePages heap.buffer pages)) payload).2) := by
  obtain ⟨calls, followed⟩ := @scripts_follow _ firmware memory report startScript lines payload
  rw [exec_bind]
  cases ran : (scripts firmware memory report startScript lines).exec payload with
  | mk result middle =>
    rw [ran] at followed
    have account := followed.entries
    rw [started] at account
    cases result with
    | error stop =>
      dsimp only
      rw [account]
      exact (@calls_covered _ memory (Ledger.empty.obtain _) calls).1
    | ok value =>
      have last : entries firmware memory (called middle (.freePages heap.buffer pages)) =
          .obtained (heap.buffer, pages) :: (calls.flatMap (posted memory) ++ [.released (heap.buffer, pages)]) := by
        rw [entries_called, account]
        rfl
      have covered := @framed_covered _ memory (heap.buffer, pages) calls
      rw [← last] at covered
      dsimp only
      rw [exec_bind, exec_service]
      cases firmware (middle.calls.map Prod.fst ++ [.freePages heap.buffer pages]) with
      | none => exact covered
      | some reply => exact covered

section Given
variable (given : ∀ heap, firmware [.allocatePages (memory.sizeToPages heapSize)] = some heap → heap.buffer ≠ 0)
include given

theorem account_covered : Ledger.empty.Covered
    (entries firmware memory ((Session.main firmware memory report startScript lines).exec ⟨services, [], []⟩).2) := by
  rw [main_eq, exec_bind]
  cases allocated : firmware [.allocatePages (memory.sizeToPages heapSize)] with
  | none =>
    have unanswered : firmware (history (⟨services, [], []⟩ : Payload arch) ++
        [.allocatePages (memory.sizeToPages heapSize)]) = none := allocated
    rw [service_gone unanswered]
    dsimp only
    rw [entries_called, unanswered]
    trivial
  | some heap =>
    rw [service_answered allocated]
    exact started_covered firmware memory report startScript lines
      (entries_started firmware memory services allocated (given heap allocated))

theorem account_settled {last : Payload arch}
    (returned : (Session.main firmware memory report startScript lines).exec ⟨services, [], []⟩ = (.ok ⟨⟩, last))
    (room : ∀ script ∈ startScript :: lines, ¬ Asks (fun request => ∃ path, request = .loadFile path false) script) :
    (Ledger.empty.post (entries firmware memory last)).held = 0 := by
  have begun := returned
  rw [main_eq] at begun
  obtain ⟨heap, _, first, _⟩ := exec_bind_returned begun
  obtain ⟨allocated, _⟩ := service_returned first
  obtain ⟨script, others, _, account, _, asks⟩ :=
    main_followed firmware memory report startScript lines services allocated (given heap allocated) returned
  rw [account]
  apply framed_settled
  intro call member
  obtain ⟨line, among, path, asked⟩ := asks call member
  cases full : call.allocates with
  | true => rfl
  | false => exact absurd (asked.mono fun request same => ⟨path, full ▸ same⟩) (room line among)

end Given

/-- In every run, wherever it stops, nothing is given back that is not held at that
time. If no file meets a full heap, a run that returns has given back everything. -/
theorem pages_given_back_once
    (given : ∀ heap, firmware [.allocatePages (memory.sizeToPages heapSize)] = some heap → heap.buffer ≠ 0) :
    let ended := (Session.main firmware memory report startScript lines).exec ⟨services, [], []⟩
    let account := entries firmware memory ended.2
    Ledger.empty.Covered account ∧ (ended.1 = .ok ⟨⟩ →
      (∀ script ∈ startScript :: lines, ¬ Asks (fun request => ∃ path, request = .loadFile path false) script) →
      (Ledger.empty.post account).held = 0 ∧
        (Ledger.empty.post account).released = (Ledger.empty.post account).obtained) := by
  have covered := account_covered firmware memory report startScript lines services given
  refine ⟨covered, fun returned room => ?_⟩
  have settled := account_settled firmware memory report startScript lines services given (Prod.ext returned rfl) room
  exact ⟨settled, (covered.conserved Ledger.conserved_empty).settled settled⟩

end Whole

/-- Firmware that gives the heap first, and the same image to every file. -/
def loadingFirmware : Firmware .x64 := fun history =>
  if history.length = 1 then some ⟨0, false, [], 0x10000000, 0⟩ else some ⟨0, false, [], 0x7f000000, 0x2000⟩

def startFile : MpObj .x64 := ⟨none, none, some "!SETP/STPY".toList⟩

def loadOnce : Session .x64 := .ask (.loadFile startFile true) (fun _ => .done) fun _ => .done

/-- The image stays when there is no room for the bytes. -/
def loadTwice : Session .x64 := .ask (.loadFile startFile false) (fun _ => .done) fun _ => loadOnce

def sessionOf (line : Session .x64) : Except Stop PUnit × Payload .x64 :=
  (Session.main loadingFirmware plainMemory (fun _ => []) loadOnce [line]).exec ⟨fun _ => 7, [], []⟩

theorem loads_refine_main : ∃ script others final, others.length = 1 ∧
    (MicroPython.main plainMemory ⟨0x10000000, by decide⟩ script others).exec fresh = (.ok ⟨⟩, final) ∧
    final.pages = Ledger.empty.post (entries loadingFirmware plainMemory (sessionOf loadTwice).2) ∧
    (runCalls script others).filterMap opened = images loadingFirmware (sessionOf loadTwice).2 :=
  session_refines_main loadingFirmware plainMemory (fun _ => []) loadOnce [loadTwice] (fun _ => 7) rfl (by decide)
    (Prod.ext (by decide +kernel) rfl)

theorem loads_given_back : (Ledger.empty.post (entries loadingFirmware plainMemory (sessionOf loadOnce).2)).held = 0 := by
  have room : ∀ script ∈ [loadOnce, loadOnce], ¬ Asks (fun request => ∃ path, request = .loadFile path false) script := by
    intro script member asks
    obtain rfl | rfl := List.mem_pair.mp member
    all_goals
      cases asks with
      | now full =>
        obtain ⟨path, same⟩ := full
        cases same
      | next value later => cases later
      | caught error later => cases later
  obtain ⟨_, settled⟩ := pages_given_back_once loadingFirmware plainMemory (fun _ => []) loadOnce [loadOnce] (fun _ => 7)
    (by intro heap allocated; cases allocated; decide)
  exact (settled (by decide +kernel) room).1

end SblPayload.Proofs.SessionPages
