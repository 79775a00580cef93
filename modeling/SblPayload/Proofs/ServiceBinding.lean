import SblPayload.MicroPython.SecStartup

/-! The interpreter starts with every service bound, or not at all. The failure
handler itself calls through the table, and only once its own row is bound. -/

namespace SblPayload.Proofs.ServiceBinding
open Library MicroPython Script

def fields : List SblField := [.debugPrint, .consoleInit, .consolePoll, .consoleRead, .consoleWrite, .microSecondDelay,
  .allocatePages, .freePages, .drawFrameBuffer, .serialPortWrite, .loadFile, .buildConfigData, .saveConfigData,
  .platformReset]

theorem mem_fields (field : SblField) : field ∈ fields := by
  cases field <;> decide

theorem fields_nodup : fields.Nodup := by decide

def rows (chosen : List SblField) : List TableEntry := chosen.flatMap fun field => [.text field.name, .field field]

/-- Each row of the table holds the name of a field and the address of that field. -/
theorem serivceMapTbl_rows : serivceMapTbl = rows fields := by decide

theorem text_mem_rows {name : Text} (member : .text name ∈ serivceMapTbl) : ∃ field, name = SblField.name field := by
  rw [serivceMapTbl_rows, rows] at member
  obtain ⟨field, _, here⟩ := List.mem_flatMap.mp member
  simp only [List.mem_cons, TableEntry.text.injEq, reduceCtorEq, List.not_mem_nil, or_self, or_false] at here
  exact ⟨field, here⟩

variable {getProcAddress : Text → Address}

def storesIn (field : SblField) : BootEvent → Bool
  | .store other _ => other = field
  | _ => false

/-- The rows of `done` are bound, each by one store, and nothing was called. -/
structure Bound (getProcAddress : Text → Address) (done : List SblField) (boot : Boot) : Prop where
  services : ∀ field, boot.services field = if field ∈ done then getProcAddress field.name else 0
  found : ∀ field ∈ done, getProcAddress field.name ≠ 0
  stores : ∀ field, boot.events.countP (storesIn field) = if field ∈ done then 1 else 0
  noMain : ∀ services, .main services ∉ boot.events
  noCall : ∀ field func, .call field func ∉ boot.events

def CallsBound (getProcAddress : Text → Address) (boot : Boot) : Prop :=
  ∀ field func, .call field func ∈ boot.events →
    field = .debugPrint ∧ func = getProcAddress SblField.debugPrint.name ∧ func ≠ 0

structure Stopped (getProcAddress : Text → Address) (boot : Boot) : Prop where
  missing : ∃ field, getProcAddress (SblField.name field) = 0
  last : boot.events.getLast? = some .cpuDeadLoop
  noMain : ∀ services, .main services ∉ boot.events
  calls : CallsBound getProcAddress boot

theorem bound_lookup {done : List SblField} (name : Text) :
    Contract (Bound getProcAddress done) (record (.getProcAddress name)) (fun _ => Bound getProcAddress done)
      (fun _ => Stopped getProcAddress) := by
  intro boot bound
  refine ⟨bound.services, bound.found, fun field => ?_, fun services => ?_, fun field func => ?_⟩
  · rw [← bound.stores field]
    exact List.countP_append
  · change .main services ∉ boot.events ++ [BootEvent.getProcAddress name]
    simpa using bound.noMain services
  · change .call field func ∉ boot.events ++ [BootEvent.getProcAddress name]
    simpa using bound.noCall field func

theorem bound_store {done : List SblField} {field : SblField} (absent : field ∉ done)
    (found : getProcAddress field.name ≠ 0) :
    Contract (Bound getProcAddress done) (storeService field (getProcAddress field.name))
      (fun _ => Bound getProcAddress (done ++ [field])) (fun _ => Stopped getProcAddress) := by
  intro boot bound
  refine ⟨fun other => ?_, fun other member => ?_, fun other => ?_, fun services => ?_, fun other func => ?_⟩
  · change (if other = field then _ else boot.services other) = _
    by_cases same : other = field
    · simp [same]
    · simp [same, bound.services other]
  · rcases List.mem_append.mp member with earlier | last
    · exact bound.found other earlier
    · rw [List.mem_singleton.mp last]
      exact found
  · change (boot.events ++ [BootEvent.store field _]).countP (storesIn other) = _
    rw [List.countP_append, bound.stores other]
    by_cases same : other = field
    · rw [same]
      simp [absent, storesIn]
    · have apart : field ≠ other := fun equal => same equal.symm
      simp [same, apart, storesIn]
  · change .main services ∉ boot.events ++ [BootEvent.store field _]
    simpa using bound.noMain services
  · change .call other func ∉ boot.events ++ [BootEvent.store field _]
    simpa using bound.noCall other func

/-- The message of an assertion goes through a bound field: the row the handler
uses is the first. -/
theorem stopped_assert {done : List SblField} {boot : Boot} (bound : Bound getProcAddress done boot)
    (first : .debugPrint ∈ done) {field : SblField} (missing : getProcAddress field.name = 0) :
    Stopped getProcAddress (debugAssert.exec boot).2 := by
  have address : boot.services .debugPrint = getProcAddress SblField.debugPrint.name := by
    rw [bound.services, if_pos first]
  refine ⟨⟨field, missing⟩, List.getLast?_concat, fun services => ?_, fun other func member => ?_⟩
  · change .main services ∉ boot.events ++ [BootEvent.call .debugPrint _] ++ [.cpuDeadLoop]
    simpa using bound.noMain services
  · change .call other func ∈ boot.events ++ [BootEvent.call .debugPrint (boot.services .debugPrint)] ++ [.cpuDeadLoop]
      at member
    simp only [List.mem_append, List.mem_singleton, BootEvent.call.injEq, reduceCtorEq, or_false] at member
    rcases member with earlier | ⟨rfl, rfl⟩
    · exact absurd earlier (bound.noCall other func)
    · exact ⟨rfl, address, by rw [address]; exact bound.found _ first⟩

theorem stopped_first {done : List SblField} {boot : Boot} (bound : Bound getProcAddress done boot) {field : SblField}
    (missing : getProcAddress field.name = 0) :
    Stopped getProcAddress ((cpuDeadLoop : BootRun PUnit).exec boot).2 := by
  refine ⟨⟨field, missing⟩, List.getLast?_concat, fun services => ?_, fun other func member => ?_⟩
  · change .main services ∉ boot.events ++ [BootEvent.cpuDeadLoop]
    simpa using bound.noMain services
  · change .call other func ∈ boot.events ++ [BootEvent.cpuDeadLoop] at member
    simp only [List.mem_append, List.mem_singleton, reduceCtorEq, or_false] at member
    exact absurd member (bound.noCall other func)

theorem bound_check {done : List SblField} (first : done ≠ [] → .debugPrint ∈ done) (field : SblField) :
    Contract (Bound getProcAddress done) (checkFound (2 * done.length) (getProcAddress field.name))
      (fun _ boot => getProcAddress field.name ≠ 0 ∧ Bound getProcAddress done boot)
      (fun _ => Stopped getProcAddress) := by
  intro boot bound
  unfold checkFound
  by_cases missing : getProcAddress field.name = 0
  · rw [if_pos missing]
    by_cases later : 2 * done.length > 0
    · rw [if_pos later, assert, missing]
      exact stopped_assert bound (first (List.length_pos_iff.mp (by omega))) missing
    · rw [if_neg later]
      exact stopped_first bound missing
  · rw [if_neg missing]
    exact ⟨missing, bound⟩

/-- The loop over the rows that are left. The print service comes first, so it is
bound at every later row. -/
theorem bindServices_ends (rest done : List SblField) (split : fields = done ++ rest) :
    Contract (Bound getProcAddress done) (bindServices getProcAddress (2 * done.length) (rows rest))
      (fun _ => Bound getProcAddress fields) (fun _ => Stopped getProcAddress) := by
  induction rest generalizing done with
  | nil =>
    rw [List.append_nil] at split
    rw [split]
    exact Contract.pure fun _ bound => bound
  | cons field rest ih =>
    have absent : field ∉ done := by
      have apart := fields_nodup
      rw [split] at apart
      exact fun member => (List.nodup_append.mp apart).2.2 field member field List.mem_cons_self rfl
    have first : done ≠ [] → .debugPrint ∈ done := by
      intro nonempty
      cases done with
      | nil => exact absurd rfl nonempty
      | cons head tail =>
        have head_eq : SblField.debugPrint = head := (List.cons.inj split).1
        rw [head_eq]
        exact List.mem_cons_self
    have next := ih (done ++ [field]) (by rw [split, List.append_assoc]; rfl)
    rw [List.length_append, Nat.mul_add] at next
    refine (bound_lookup field.name).bind fun _ => (bound_check first field).bind fun _ => ?_
    exact Contract.assuming fun found => (bound_store absent found).bind fun _ => next

def startInterpreter : BootRun PUnit := do
  callService .debugPrint
  let boot ← get
  record (.main boot.services)
  cpuDeadLoop

theorem exec_startInterpreter (boot : Boot) :
    startInterpreter.exec boot = (.error .deadLoop, { boot with
      events := boot.events ++ [.call .debugPrint (boot.services .debugPrint)] ++ [.main boot.services] ++ [.cpuDeadLoop] }) :=
  rfl

theorem bound_services {boot : Boot} (bound : Bound getProcAddress fields boot) (field : SblField) :
    boot.services field = getProcAddress field.name := by
  rw [bound.services, if_pos (mem_fields field)]

theorem bound_found {boot : Boot} (bound : Bound getProcAddress fields boot) {name : Text}
    (member : .text name ∈ serivceMapTbl) : getProcAddress name ≠ 0 := by
  obtain ⟨field, rfl⟩ := text_mem_rows member
  exact bound.found field (mem_fields field)

theorem bound_calls {boot : Boot} (bound : Bound getProcAddress fields boot) :
    CallsBound getProcAddress (startInterpreter.exec boot).2 := by
  intro field func member
  rw [exec_startInterpreter] at member
  have last : field = .debugPrint ∧ func = boot.services .debugPrint := by simpa [bound.noCall] using member
  obtain ⟨rfl, rfl⟩ := last
  refine ⟨rfl, bound_services bound _, ?_⟩
  rw [bound_services bound]
  exact bound.found _ (mem_fields _)

/-- The start of the payload ends in the dead loop: it stops at a missing service, or
it starts the interpreter with all of them bound. -/
theorem startup_cases (getProcAddress : Text → Address) :
    let ended := (secStartup getProcAddress).exec ⟨fun _ => 0, []⟩
    ended.1 = .error .deadLoop ∧ (Stopped getProcAddress ended.2 ∨
      ∃ boot, Bound getProcAddress fields boot ∧ ended.2 = (startInterpreter.exec boot).2) := by
  have start : Bound getProcAddress [] ⟨fun _ => 0, []⟩ := by
    refine ⟨fun _ => rfl, fun _ none => ?_, fun _ => rfl, fun _ none => ?_, fun _ _ none => ?_⟩
    all_goals exact absurd none List.not_mem_nil
  have outcome := bindServices_ends fields [] rfl _ start
  have whole : secStartup getProcAddress = bindServices getProcAddress 0 (rows fields) >>= fun _ => startInterpreter := by
    rw [secStartup, serivceMapTbl_rows]
    rfl
  change Ends _ _ ((bindServices getProcAddress 0 (rows fields)).exec _) at outcome
  rw [whole, exec_bind]
  cases ran : (bindServices getProcAddress 0 (rows fields)).exec ⟨fun _ => 0, []⟩ with
  | mk result boot =>
    rw [ran] at outcome
    cases result with
    | error error => exact ⟨rfl, Or.inl outcome⟩
    | ok value => exact ⟨rfl, Or.inr ⟨boot, outcome, rfl⟩⟩

/-- The interpreter is started only with all services bound, each to the address
found for its own name. Without one of them the run ends in the dead loop, and no
call goes through a field that is not bound. -/
theorem services_bound_before_main (getProcAddress : Text → Address) :
    let ended := (secStartup getProcAddress).exec ⟨fun _ => 0, []⟩
    ended.1 = .error .deadLoop ∧ ended.2.events.getLast? = some .cpuDeadLoop ∧
    (∀ services, .main services ∈ ended.2.events →
      (∀ name, .text name ∈ serivceMapTbl → getProcAddress name ≠ 0) ∧
      ∀ field, services field = getProcAddress field.name ∧ ended.2.events.countP (storesIn field) = 1) ∧
    ((∃ name, .text name ∈ serivceMapTbl ∧ getProcAddress name = 0) → ∀ services, .main services ∉ ended.2.events) ∧
    CallsBound getProcAddress ended.2 := by
  obtain ⟨halted, stopped | ⟨boot, bound, same⟩⟩ := startup_cases getProcAddress
  · exact ⟨halted, stopped.last, fun services started => absurd started (stopped.noMain services),
      fun _ => stopped.noMain, stopped.calls⟩
  · have calls := bound_calls bound
    refine ⟨halted, ?_⟩
    rw [same]
    rw [exec_startInterpreter] at calls ⊢
    refine ⟨List.getLast?_concat, fun started member => ⟨fun name => bound_found bound, fun field => ⟨?_, ?_⟩⟩,
      fun ⟨name, member, missing⟩ => absurd missing (bound_found bound member), calls⟩
    · have same : started = boot.services := by simpa [bound.noMain] using member
      rw [same, bound_services bound]
    · simp only [List.countP_append, bound.stores field, if_pos (mem_fields field)]
      rfl

end SblPayload.Proofs.ServiceBinding
