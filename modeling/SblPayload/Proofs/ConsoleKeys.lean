import SblPayload.Proofs.SessionLogic

/-! The keys typed at the console, in a run of the interpreter. Scripts poll and read
them through `pyb.getch`, the REPL through the port: every key read reaches its
reader, once and in order. -/

namespace SblPayload.Proofs.ConsoleKeys
open Library MicroPython Script SessionLogic

variable {arch : Arch}

def isRead : ServiceCall arch → Bool
  | .consoleRead _ => true
  | _ => false

/-- A console with a queue. At any time keys may have been typed; a poll tells whether
one waits, and a read takes the next one, or none when none waits. -/
structure Keyboard (firmware : Firmware arch) where
  typed : List (ServiceCall arch) → List (BitVec 8)
  taken : List (ServiceCall arch) → Nat
  start : taken [] = 0
  grows : ∀ history call, typed history <+: typed (history ++ [call])
  kept : ∀ history call, (isRead call = false ∨ firmware (history ++ [call]) = none) →
    taken (history ++ [call]) = taken history
  poll : ∀ history reply, firmware (history ++ [.consolePoll]) = some reply →
    reply.ready = decide (taken history < (typed (history ++ [.consolePoll])).length)
  read : ∀ history reply, firmware (history ++ [.consoleRead 1]) = some reply →
    reply.bytes = ((typed (history ++ [.consoleRead 1])).drop (taken history)).take 1 ∧
      taken (history ++ [.consoleRead 1]) = taken history + reply.bytes.length

/-- The key an answer hands to the script; zero means that there was none. -/
def keyOf : Request arch × Value arch → List (BitVec 8)
  | (.getch _, .int key) => if key = 0 then [] else [BitVec.ofInt 8 key]
  | (.rxChr, .int key) => if key = 0 then [] else [BitVec.ofInt 8 key]
  | _ => []

variable {firmware : Firmware arch} (keyboard : Keyboard firmware)

def readsKeys : Request arch → Bool
  | .getch _ => true
  | .rxChr => true
  | _ => false

/-- Zero, or a key that was typed: never what a variable held before. -/
def Genuine (typed : List (BitVec 8)) (value : Value arch) : Prop :=
  value = .int 0 ∨ ∃ key ∈ typed, value = .int key.toNat

/-- The keys handed out are the first ones typed. -/
structure Received (payload : Payload arch) : Prop where
  keys : payload.answered.flatMap keyOf = (keyboard.typed (history payload)).take (keyboard.taken (history payload))
  typed : keyboard.taken (history payload) ≤ (keyboard.typed (history payload)).length
  genuine : ∀ entry ∈ payload.answered, readsKeys entry.1 = true → Genuine (keyboard.typed (history payload)) entry.2

def receiving : Changes (Payload arch) where
  allowed before after := Received keyboard before → Received keyboard after
  refl _ := id
  trans first second received := second (first received)

variable {keyboard}

theorem Genuine.later {typed later : List (BitVec 8)} {value : Value arch} (genuine : Genuine typed value)
    (grown : typed <+: later) : Genuine later value :=
  genuine.imp_right fun ⟨key, member, same⟩ => ⟨key, grown.subset member, same⟩

theorem genuine_noted {typed : List (BitVec 8)} {payload : Payload arch} {request : Request arch} {value : Value arch}
    (before : ∀ entry ∈ payload.answered, readsKeys entry.1 = true → Genuine typed entry.2)
    (last : readsKeys request = true → Genuine typed value) :
    ∀ entry ∈ (noted payload request value).answered, readsKeys entry.1 = true → Genuine typed entry.2 := by
  intro entry member
  rcases List.mem_append.mp member with earlier | here
  · exact before entry earlier
  · rw [List.mem_singleton.mp here]
    exact last

/-- Keys typed later do not change which were the first. -/
theorem Received.call {payload : Payload arch} (received : Received keyboard payload) {call : ServiceCall arch}
    (kept : keyboard.taken (history payload ++ [call]) = keyboard.taken (history payload)) :
    Received keyboard (called payload call) := by
  obtain ⟨later, same⟩ := keyboard.grows (history payload) call
  constructor
  · rw [history_called, kept, ← same, List.take_append_of_le_length received.typed]
    exact received.keys
  · rw [history_called, kept, ← same, List.length_append]
    exact Nat.le_trans received.typed (Nat.le_add_right _ _)
  · intro entry member reads
    rw [history_called]
    exact (received.genuine entry member reads).later (keyboard.grows (history payload) call)

theorem quiet_receives {call : ServiceCall arch} (quiet : isRead call = false) :
    Allows firmware (receiving keyboard) call := by
  intro payload received
  have kept := received.call (keyboard.kept (history payload) call (Or.inl quiet))
  rw [exec_service]
  split
  · exact kept
  · exact kept

theorem Received.silent {payload : Payload arch} (received : Received keyboard payload) {request : Request arch}
    {value : Value arch} (silent : keyOf (request, value) = []) (zero : readsKeys request = true → value = .int 0) :
    Received keyboard (noted payload request value) := by
  refine ⟨?_, received.typed, genuine_noted received.genuine fun reads => Or.inl (zero reads)⟩
  rw [noted, List.flatMap_append, List.flatMap_singleton, silent, List.append_nil]
  exact received.keys

theorem requested_quiet {memory : Memory} {request : Request arch} (other : readsKeys request = false)
    {call : ServiceCall arch} (made : requested memory request call) : isRead call = false := by
  cases call with
  | consoleRead bytes =>
    have reached : SblField.consoleRead ∈ servicesOf request := requested_service made
    cases request with
    | getch key | rxChr => cases other
    | _ => simp [servicesOf] at reached
  | _ => rfl

theorem keyOf_other {request : Request arch} (other : readsKeys request = false) (value : Value arch) :
    keyOf (request, value) = [] := by
  cases request with
  | getch key | rxChr => cases other
  | _ => rfl

/-- The script gets what was read. -/
theorem Received.read {payload : Payload arch} (received : Received keyboard payload) {reply : Reply arch}
    (answered : firmware (history payload ++ [.consoleRead 1]) = some reply) {request : Request arch} {value : Value arch}
    (handed : keyOf (request, value) = reply.bytes)
    (last : Genuine (keyboard.typed (history payload ++ [.consoleRead 1])) value) :
    Received keyboard (noted (called payload (.consoleRead 1)) request value) := by
  obtain ⟨bytes, taken⟩ := keyboard.read (history payload) reply answered
  obtain ⟨later, same⟩ := keyboard.grows (history payload) (.consoleRead 1)
  have earlier : (keyboard.typed (history payload ++ [.consoleRead 1])).take (keyboard.taken (history payload)) =
      (keyboard.typed (history payload)).take (keyboard.taken (history payload)) := by
    rw [← same, List.take_append_of_le_length received.typed]
  have next : ((keyboard.typed (history payload ++ [.consoleRead 1])).drop (keyboard.taken (history payload))).take
      reply.bytes.length = reply.bytes := by
    have front : reply.bytes <+: (keyboard.typed (history payload ++ [.consoleRead 1])).drop
        (keyboard.taken (history payload)) := bytes ▸ List.take_prefix 1 _
    exact (List.prefix_iff_eq_take.mp front).symm
  constructor
  · change (payload.answered ++ [(request, value)]).flatMap keyOf = List.take
      (keyboard.taken (history (called payload _))) (keyboard.typed (history (called payload _)))
    rw [history_called, taken, List.take_add, earlier, next, List.flatMap_append, List.flatMap_singleton, handed,
      received.keys]
  · change keyboard.taken (history (called payload _)) ≤ (keyboard.typed (history (called payload _))).length
    have fits := congrArg List.length next
    rw [List.length_take, List.length_drop] at fits
    have below : (keyboard.typed (history payload)).length ≤
        (keyboard.typed (history payload ++ [.consoleRead 1])).length := by
      rw [← same, List.length_append]
      exact Nat.le_add_right _ _
    have typed := received.typed
    rw [history_called, taken]
    omega
  · refine genuine_noted (fun entry member reads => ?_) fun _ => ?_
    · change Genuine (keyboard.typed (history (called payload _))) entry.2
      rw [history_called]
      exact (received.genuine entry member reads).later ⟨later, same⟩
    · change Genuine (keyboard.typed (history (called payload _))) value
      rw [history_called]
      exact last

/-- A read whose key goes to the script, and what the script gets if there is none. -/
def readFor (firmware : Firmware arch) (request : Request arch) (none : BitVec 8) : PayloadRun arch (Value arch) := do
  let read ← service firmware (.consoleRead 1)
  let value := Value.int (read.bytes.head?.getD none).toNat
  modify fun payload => noted payload request value
  return value

theorem rxChr_eq : Request.observed firmware memory .rxChr = readFor firmware .rxChr 0 := by
  simp only [Request.observed, Request.perform, mpHalStdinRxChr, readFor, map_eq_pure_bind, bind_assoc, pure_bind]
  rfl

theorem getch_eq (key : BitVec 8) : Request.observed firmware memory (.getch key) = (do
    let poll ← service firmware .consolePoll
    if poll.ready then readFor firmware (.getch key) key
    else do
      modify fun payload => noted payload (.getch key) (.int 0)
      return .int 0) := by
  simp only [Request.observed, Request.perform, pybGetch, readFor, map_eq_pure_bind, bind_assoc]
  congr 1
  funext poll
  split
  · simp only [bind_assoc, pure_bind]
    rfl
  · rfl

section Typed

variable (typable : ∀ history, 0 ∉ keyboard.typed history) {request : Request arch}
  (hands : ∀ key : Int, keyOf (request, .int key) = if key = 0 then [] else [BitVec.ofInt 8 key])
include typable hands

/-- No key is mistaken for none. -/
theorem key_handed {key : BitVec 8} {before : List (ServiceCall arch)} (member : key ∈ keyboard.typed before) :
    keyOf (request, .int key.toNat) = [key] := by
  have nonzero : key ≠ 0 := fun zero => typable before (zero ▸ member)
  have counted : (key.toNat : Int) ≠ 0 := by
    intro zero
    exact nonzero (BitVec.eq_of_toNat_eq (Int.ofNat_eq_zero.mp zero))
  rw [hands, if_neg counted, BitVec.ofInt_natCast, BitVec.ofNat_toNat]
  rfl

theorem readFor_receives {payload : Payload arch} (received : Received keyboard payload) {none : BitVec 8}
    (waits : none = 0 ∨ keyboard.taken (history payload) < (keyboard.typed (history payload)).length) :
    Received keyboard ((readFor firmware request none).exec payload).2 := by
  unfold readFor
  rw [exec_bind, exec_service]
  cases answered : firmware (payload.calls.map Prod.fst ++ [.consoleRead 1]) with
  | none => exact received.call (keyboard.kept (history payload) (.consoleRead 1) (Or.inr answered))
  | some reply =>
    refine and_imp.mpr (received.read answered) ?_
    obtain ⟨bytes, _⟩ := keyboard.read (history payload) reply answered
    obtain ⟨later, same⟩ := keyboard.grows (history payload) (.consoleRead 1)
    cases left : (keyboard.typed (history payload ++ [.consoleRead 1])).drop (keyboard.taken (history payload)) with
    | nil =>
      rw [left] at bytes
      have zero : none = 0 := by
        refine waits.resolve_right fun waiting => ?_
        have empty := List.drop_eq_nil_iff.mp left
        rw [← same, List.length_append] at empty
        omega
      rw [bytes, zero, hands]
      exact ⟨rfl, Or.inl rfl⟩
    | cons key rest =>
      rw [left] at bytes
      have member : key ∈ keyboard.typed (history payload ++ [.consoleRead 1]) :=
        List.mem_of_mem_drop (left ▸ List.mem_cons_self)
      rw [bytes]
      exact ⟨key_handed typable hands member, Or.inr ⟨key, member, rfl⟩⟩

omit hands

theorem rxChr_receives : Within (receiving keyboard) (Request.observed firmware memory .rxChr) := by
  intro payload received
  rw [rxChr_eq]
  exact readFor_receives typable (fun _ => rfl) received (Or.inl rfl)

/-- The key is read only when one waits, so the variable it is stored in is never
returned as it was. -/
theorem getch_receives (key : BitVec 8) : Within (receiving keyboard) (Request.observed firmware memory (.getch key)) := by
  intro payload received
  rw [getch_eq, exec_bind, exec_service]
  have polled := received.call (keyboard.kept (history payload) .consolePoll (Or.inl rfl))
  cases answered : firmware (payload.calls.map Prod.fst ++ [.consolePoll]) with
  | none => exact polled
  | some reply =>
    dsimp only
    split
    next ready =>
      apply readFor_receives typable (fun _ => rfl) polled
      have waiting := keyboard.poll (history payload) reply answered
      rw [ready] at waiting
      rw [history_called, keyboard.kept (history payload) .consolePoll (Or.inl rfl)]
      exact Or.inr (of_decide_eq_true waiting.symm)
    next => exact polled.silent rfl fun _ => rfl

theorem observed_receives (request : Request arch) :
    Within (receiving keyboard) (request.observed firmware memory) := by
  cases reads : readsKeys request with
  | true =>
    cases request with
    | getch key => exact getch_receives typable key
    | rxChr => exact rxChr_receives typable
    | _ => cases reads
  | false =>
    apply observed_within
    · exact fun call made => quiet_receives (requested_quiet reads made)
    · exact fun value payload received => received.silent (keyOf_other reads value) fun key => absurd (reads.symm.trans key) nofun

end Typed

/-- In every run, whenever keys are typed and however scripts and the REPL take turns
in asking for them, the keys handed out are the first ones typed: none is lost, none
comes twice, none before an earlier one. What `getch` returns is zero or such a key,
whatever its variable held. -/
theorem keys_received_in_order (keyboard : Keyboard firmware) (typable : ∀ history, 0 ∉ keyboard.typed history)
    (memory : Memory) (report : MpException → List Text) (startScript : Session arch) (lines : List (Session arch))
    (services : SblService) :
    let ended := ((Session.main firmware memory report startScript lines).exec ⟨services, [], []⟩).2
    ended.answered.flatMap keyOf = (keyboard.typed (history ended)).take (keyboard.taken (history ended)) ∧
      ∀ held value, (.getch held, value) ∈ ended.answered → Genuine (keyboard.typed (history ended)) value := by
  have received : Received keyboard ⟨services, [], []⟩ := by
    have none : keyboard.taken (history (⟨services, [], []⟩ : Payload arch)) = 0 := keyboard.start
    constructor
    · rw [none]
      rfl
    · rw [none]
      exact Nat.zero_le _
    · exact List.forall_mem_nil _
  have whole : Within (receiving keyboard) (Session.main firmware memory report startScript lines) := by
    apply main_within
    · exact quiet_receives rfl
    · exact fun text => quiet_receives rfl
    · exact fun script member request asks => observed_receives typable request
    · exact quiet_receives rfl
    · exact fun buffer => quiet_receives rfl
  have last := whole ⟨services, [], []⟩ received
  exact ⟨last.keys, fun held value member => last.genuine _ member rfl⟩

def typedKeys : List (BitVec 8) := [0x61, 0x62]

def readsIn (history : List (ServiceCall .x64)) : Nat := history.countP isRead

/-- A console on which two keys have been typed before the start. -/
def twoKeys : Firmware .x64 := fun history =>
  some ⟨0, readsIn history < typedKeys.length, (typedKeys.drop (readsIn history - 1)).take 1, 0, 0⟩

theorem readsIn_snoc (history : List (ServiceCall .x64)) (call : ServiceCall .x64) :
    readsIn (history ++ [call]) = readsIn history + if isRead call then 1 else 0 := by
  rw [readsIn, List.countP_append, List.countP_singleton]
  rfl

def twoKeyboard : Keyboard twoKeys where
  typed _ := typedKeys
  taken history := min (readsIn history) typedKeys.length
  start := rfl
  grows _ _ := List.prefix_rfl
  kept history call either := by
    have quiet : isRead call = false := either.resolve_right nofun
    rw [readsIn_snoc, quiet]
    rfl
  poll history reply answered := by
    obtain rfl := Option.some.inj answered
    have same : readsIn (history ++ [.consolePoll]) = readsIn history := readsIn_snoc history .consolePoll
    rw [same, decide_eq_decide, min_lt_iff]
    exact (or_iff_left (lt_irrefl _)).symm
  read history reply answered := by
    obtain rfl := Option.some.inj answered
    have next : readsIn (history ++ [.consoleRead 1]) = readsIn history + 1 := readsIn_snoc history (.consoleRead 1)
    dsimp only
    rw [next, Nat.add_sub_cancel]
    have two : typedKeys.length = 2 := rfl
    rcases Nat.lt_or_ge (readsIn history) 2 with below | above
    · rw [Nat.min_eq_left (by omega), Nat.min_eq_left (by omega)]
      refine ⟨rfl, ?_⟩
      rw [List.length_take, List.length_drop]
      omega
    · rw [Nat.min_eq_right (by omega), Nat.min_eq_right (by omega), List.drop_eq_nil_of_le (by omega),
        List.drop_eq_nil_of_le (by omega)]
      exact ⟨rfl, rfl⟩

def askTwice : Session .x64 := .ask (.getch 0xff) (fun _ => .ask .rxChr (fun _ => .done) fun _ => .done) fun _ => .done

theorem two_keys_received :
    let ended := ((Session.main twoKeys ⟨fun _ => 1, false⟩ (fun _ => []) .done [askTwice]).exec ⟨fun _ => 1, [], []⟩).2
    ended.answered.flatMap keyOf = (twoKeyboard.typed (history ended)).take (twoKeyboard.taken (history ended)) ∧
      ∀ held value, (.getch held, value) ∈ ended.answered → Genuine (twoKeyboard.typed (history ended)) value :=
  keys_received_in_order twoKeyboard (fun _ => (by decide : 0 ∉ typedKeys)) ⟨fun _ => 1, false⟩ (fun _ => []) .done [askTwice] fun _ => 1

end SblPayload.Proofs.ConsoleKeys
