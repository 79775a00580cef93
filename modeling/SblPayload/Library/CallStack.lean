import Mathlib.Data.List.TakeWhile

/-! A stack of activations with non-local jumps. Every activation has a number of
its own, so one that has ended is never mistaken for a later one in its place. -/

namespace SblPayload.Library

/-- The activations that have not ended, the running one first, the number of the
next one, and the activation recorded in each jump buffer. -/
structure CallStack (β : Type) where
  stack : List Nat
  fresh : Nat
  saved : β → Option Nat

namespace CallStack

variable {β : Type}

def enter (calls : CallStack β) : CallStack β :=
  { calls with stack := calls.fresh :: calls.stack, fresh := calls.fresh + 1 }

def leave (calls : CallStack β) : Option (CallStack β) :=
  match calls.stack with
  | [] => none
  | _ :: rest => some { calls with stack := rest }

def save [DecidableEq β] (buffer : β) (calls : CallStack β) : CallStack β :=
  { calls with saved := fun other => if other = buffer then calls.stack.head? else calls.saved other }

/-- Go back to the recorded activation, ending all above it. There is no state to
go back to when it has ended. -/
def jump (buffer : β) (calls : CallStack β) : Option (CallStack β) :=
  match calls.saved buffer with
  | none => none
  | some target =>
    if target ∈ calls.stack then some { calls with stack := calls.stack.dropWhile (· ≠ target) } else none

structure Numbered (calls : CallStack β) : Prop where
  stack : ∀ activation ∈ calls.stack, activation < calls.fresh
  saved : ∀ buffer activation, calls.saved buffer = some activation → activation < calls.fresh

/-- The activation recorded in the buffer, if there is one, has ended. -/
def Gone (buffer : β) (calls : CallStack β) : Prop :=
  ∀ activation, calls.saved buffer = some activation → activation ∉ calls.stack

theorem leave_some {calls after : CallStack β} (left : calls.leave = some after) :
    ∃ top, calls.stack = top :: after.stack ∧ after.fresh = calls.fresh ∧ after.saved = calls.saved := by
  cases same : calls.stack with
  | nil => simp [leave, same] at left
  | cons top rest =>
    simp only [leave, same, Option.some.injEq] at left
    subst left
    exact ⟨top, rfl, rfl, rfl⟩

theorem jump_some {buffer : β} {calls after : CallStack β} (jumped : calls.jump buffer = some after) :
    ∃ target, calls.saved buffer = some target ∧ target ∈ calls.stack ∧ after.stack.head? = some target ∧
      after.stack <:+ calls.stack ∧ after.fresh = calls.fresh ∧ after.saved = calls.saved := by
  cases recorded : calls.saved buffer with
  | none => simp [jump, recorded] at jumped
  | some target =>
    by_cases member : target ∈ calls.stack
    · simp only [jump, recorded, member, ↓reduceIte, Option.some.injEq] at jumped
      subst jumped
      refine ⟨target, rfl, member, ?_, List.dropWhile_suffix _, rfl, rfl⟩
      have nonempty : calls.stack.dropWhile (· ≠ target) ≠ [] := by
        intro none
        have all := List.dropWhile_eq_nil_iff.mp none target member
        simp at all
      have stops := List.head_dropWhile_not (· ≠ target) nonempty
      rw [List.head?_eq_some_head nonempty]
      simpa using stops
    · simp [jump, recorded, member] at jumped

theorem jump_isSome {buffer : β} {calls : CallStack β} {target : Nat} (recorded : calls.saved buffer = some target)
    (member : target ∈ calls.stack) : ∃ after, calls.jump buffer = some after := by
  simp [jump, recorded, member]

namespace Numbered

variable {calls after : CallStack β}

theorem enter (numbered : Numbered calls) : Numbered calls.enter := by
  constructor
  · intro activation member
    rcases List.mem_cons.mp member with rfl | member
    · exact Nat.lt_succ_self _
    · exact Nat.lt_succ_of_lt (numbered.stack activation member)
  · intro buffer activation recorded
    exact Nat.lt_succ_of_lt (numbered.saved buffer activation recorded)

theorem save [DecidableEq β] (numbered : Numbered calls) (buffer : β) : Numbered (calls.save buffer) := by
  refine ⟨numbered.stack, fun other activation recorded => ?_⟩
  change (if other = buffer then calls.stack.head? else calls.saved other) = some activation at recorded
  split at recorded
  · exact numbered.stack activation (List.mem_of_mem_head? recorded)
  · exact numbered.saved other activation recorded

theorem shrink (numbered : Numbered calls) (stack : after.stack <:+ calls.stack) (fresh : after.fresh = calls.fresh)
    (saved : after.saved = calls.saved) : Numbered after := by
  constructor
  · intro activation member
    rw [fresh]
    exact numbered.stack activation (stack.subset member)
  · intro buffer activation recorded
    rw [fresh]
    exact numbered.saved buffer activation (saved ▸ recorded)

theorem leave (numbered : Numbered calls) (left : calls.leave = some after) : Numbered after := by
  obtain ⟨top, stack, fresh, saved⟩ := leave_some left
  exact numbered.shrink ⟨[top], by rw [stack]; rfl⟩ fresh saved

end Numbered

namespace Gone

variable {calls after : CallStack β} {buffer : β}

theorem enter (gone : Gone buffer calls) (numbered : Numbered calls) : Gone buffer calls.enter := by
  intro activation recorded member
  rcases List.mem_cons.mp member with rfl | member
  · exact absurd (numbered.saved buffer _ recorded) (Nat.lt_irrefl _)
  · exact gone activation recorded member

theorem shrink (gone : Gone buffer calls) (stack : after.stack <:+ calls.stack) (saved : after.saved = calls.saved) :
    Gone buffer after := fun activation recorded member =>
  gone activation (saved ▸ recorded) (stack.subset member)

theorem leave (gone : Gone buffer calls) (left : calls.leave = some after) : Gone buffer after := by
  obtain ⟨top, stack, _, saved⟩ := leave_some left
  exact gone.shrink ⟨[top], by rw [stack]; rfl⟩ saved

theorem jump_none (gone : Gone buffer calls) : calls.jump buffer = none := by
  cases jumped : calls.jump buffer with
  | none => rfl
  | some after =>
    obtain ⟨target, recorded, member, _⟩ := jump_some jumped
    exact absurd member (gone target recorded)

end Gone

end CallStack

end SblPayload.Library
