import SblPayload.MicroPython.Mphalport

/-! Where a `longjmp` lands. The function `setjmp` has an activation of its own,
which is the one `SetJump` records, and which ends before the caller goes on. -/

namespace SblPayload.Proofs.JumpFrames
open Library CallStack MicroPython

def start : Machine := ⟨⟨[0], 1, fun _ => none⟩, fun _ => none⟩

def Live (machine : Machine) (jumpBuf : JumpBuf) : Prop :=
  ∃ caller, machine.callers jumpBuf = some caller ∧ caller ∈ machine.calls.stack

instance (machine : Machine) (jumpBuf : JumpBuf) : Decidable (Live machine jumpBuf) :=
  match same : machine.callers jumpBuf with
  | none => .isFalse fun ⟨caller, called, _⟩ => by simp [same] at called
  | some caller => decidable_of_iff (caller ∈ machine.calls.stack) (by simp [Live, same])

/-- The recorded activation is still there, and the jump brings control back to
the activation that called `setjmp`. -/
def Resumes (step : Machine → CallEvent → Option Machine) (machine : Machine) (jumpBuf : JumpBuf) (value : Nat) : Prop :=
  (∃ recorded, machine.calls.saved jumpBuf = some recorded ∧ recorded ∈ machine.calls.stack) ∧
    ∃ after, step machine (.longjmp jumpBuf value) = some after ∧ after.calls.stack.head? = machine.callers jumpBuf

/-- What holds of a jump buffer and the state its `longjmp` is made in, at every
`longjmp` of a run. -/
def AtJumps (step : Machine → CallEvent → Option Machine) (events : List CallEvent)
    (holds : Machine → JumpBuf → Nat → Prop) : Prop :=
  ∀ before jumpBuf value after machine, events = before ++ .longjmp jumpBuf value :: after →
    before.foldlM step start = some machine → holds machine jumpBuf value

/-- Every jump made while the caller of `setjmp` is there comes back to it. -/
def JumpsResume (step : Machine → CallEvent → Option Machine) (events : List CallEvent) : Prop :=
  AtJumps step events fun machine jumpBuf value => Live machine jumpBuf → Resumes step machine jumpBuf value

theorem run_invariant {step : Machine → CallEvent → Option Machine} {inv : Machine → Prop} (initial : inv start)
    (kept : ∀ {machine after event}, inv machine → step machine event = some after → inv after) {events : List CallEvent}
    {last : Machine} (ran : events.foldlM step start = some last) : inv last := by
  have loop : ∀ machine, inv machine → events.foldlM step machine = some last → inv last := by
    clear ran
    induction events with
    | nil =>
      intro machine held ran
      cases ran
      exact held
    | cons event events ih =>
      intro machine held ran
      rw [List.foldlM_cons] at ran
      obtain ⟨after, stepped, ran⟩ := Option.bind_eq_some_iff.mp ran
      exact ih after (kept held stepped) ran
  exact loop start initial ran

structure Ended (machine : Machine) : Prop where
  numbered : Numbered machine.calls
  gone : ∀ jumpBuf, Gone jumpBuf machine.calls

theorem ended_start : Ended start :=
  ⟨⟨fun activation member => by simp [start] at member; simp [start, member], fun _ _ none => by simp [start] at none⟩,
    fun _ _ none => by simp [start] at none⟩

theorem setjmp_ends {machine : Machine} (ended : Ended machine) {jumpBuf : JumpBuf} {calls : CallStack JumpBuf}
    (set : setjmp jumpBuf machine.calls = some calls) :
    Numbered calls ∧ (∀ other, Gone other calls) ∧ calls.stack = machine.calls.stack ∧
      calls.saved jumpBuf = some machine.calls.fresh := by
  have numbered := (ended.numbered.enter.save jumpBuf).leave set
  obtain ⟨top, stack, _, saved⟩ := leave_some set
  have rest : calls.stack = machine.calls.stack := (List.cons.inj stack).2.symm
  refine ⟨numbered, fun other activation recorded member => ?_, rest, ?_⟩
  · rw [saved] at recorded
    change (if other = jumpBuf then some machine.calls.fresh else machine.calls.saved other) = some activation at recorded
    rw [rest] at member
    split at recorded
    · rw [← Option.some.inj recorded] at member
      exact absurd (ended.numbered.stack _ member) (Nat.lt_irrefl _)
    · exact ended.gone other activation recorded member
  · rw [saved]
    exact if_pos rfl

theorem longjmp_none {machine : Machine} (ended : Ended machine) (jumpBuf : JumpBuf) :
    longjmp jumpBuf machine.calls = none := by
  rw [longjmp, ((ended.gone jumpBuf).enter ended.numbered).jump_none]
  rfl

theorem ended_step {machine after : Machine} {event : CallEvent} (ended : Ended machine)
    (stepped : step machine event = some after) : Ended after := by
  cases event with
  | call =>
    cases stepped
    exact ⟨ended.numbered.enter, fun jumpBuf => (ended.gone jumpBuf).enter ended.numbered⟩
  | ret =>
    obtain ⟨calls, left, rfl⟩ := Option.map_eq_some_iff.mp stepped
    exact ⟨ended.numbered.leave left, fun jumpBuf => (ended.gone jumpBuf).leave left⟩
  | setjmp jumpBuf =>
    simp only [step, stepWith, Option.map_eq_some_iff] at stepped
    obtain ⟨calls, set, rfl⟩ := stepped
    obtain ⟨numbered, gone, _⟩ := setjmp_ends ended set
    exact ⟨numbered, gone⟩
  | longjmp jumpBuf value =>
    obtain ⟨calls, jumped, rfl⟩ := Option.map_eq_some_iff.mp stepped
    rw [longjmp_none ended] at jumped
    cases jumped

/-- No jump resumes in its recorded activation: the runs that keep the promise are
those that make no jump it is about. -/
theorem jumps_resume_iff (events : List CallEvent) :
    JumpsResume step events ↔ AtJumps step events fun machine jumpBuf _ => ¬ Live machine jumpBuf := by
  constructor
  · intro resume before jumpBuf value after machine split ran live
    have ended : Ended machine := run_invariant ended_start ended_step ran
    obtain ⟨⟨recorded, saved, member⟩, _⟩ := resume before jumpBuf value after machine split ran live
    exact ended.gone jumpBuf recorded saved member
  · intro none before jumpBuf value after machine split ran live
    exact absurd live (none before jumpBuf value after machine split ran)

def jumping : Machine :=
  ⟨⟨[2, 0], 3, fun other => if other = 0 then some 1 else none⟩, fun other => if other = 0 then some 0 else none⟩

theorem reaches_jumping : [.setjmp 0, .call].foldlM step start = some jumping := rfl

theorem recorded_activation_gone : ¬ JumpsResume step [.setjmp 0, .call, .longjmp 0 1] := by
  intro resume
  have live : Live jumping 0 := by decide
  obtain ⟨⟨recorded, saved, member⟩, _⟩ := resume [.setjmp 0, .call] 0 1 [] jumping rfl reaches_jumping live
  cases saved
  exact absurd member (by decide)

theorem macro_callers_saved {machine after : Machine} {event : CallEvent} (same : machine.callers = machine.calls.saved)
    (stepped : macroStep machine event = some after) : after.callers = after.calls.saved := by
  cases event with
  | call =>
    cases stepped
    exact same
  | ret =>
    obtain ⟨calls, left, rfl⟩ := Option.map_eq_some_iff.mp stepped
    obtain ⟨_, _, _, saved⟩ := leave_some left
    exact same.trans saved.symm
  | setjmp jumpBuf =>
    cases stepped
    funext other
    change (if other = jumpBuf then _ else machine.callers other) = if other = jumpBuf then _ else _
    rw [same]
  | longjmp jumpBuf value =>
    obtain ⟨calls, jumped, rfl⟩ := Option.map_eq_some_iff.mp stepped
    obtain ⟨_, _, _, _, _, _, saved⟩ := jump_some jumped
    exact same.trans saved.symm

/-- The macros keep the promise in every run. -/
theorem macro_jumps_resume (events : List CallEvent) : JumpsResume macroStep events := by
  intro before jumpBuf value after machine _ ran live
  have same : machine.callers = machine.calls.saved :=
    @run_invariant macroStep (fun machine => machine.callers = machine.calls.saved) rfl macro_callers_saved _ _ ran
  obtain ⟨caller, called, member⟩ := live
  have saved : machine.calls.saved jumpBuf = some caller := same ▸ called
  obtain ⟨calls, jumped⟩ := jump_isSome saved member
  obtain ⟨target, recorded, _, lands, _⟩ := jump_some jumped
  refine ⟨⟨caller, saved, member⟩, { machine with calls }, ?_, ?_⟩
  · exact Option.map_eq_some_iff.mpr ⟨calls, jumped, rfl⟩
  · rw [called, ← saved, recorded]
    exact lands

end SblPayload.Proofs.JumpFrames
