import SblPayload.Library.ScriptLogic

/-! What a script may have done to the state when it stops, however it stops. -/

namespace SblPayload.Library.Script

variable {σ ε α β : Type}

/-- A relation between an earlier and a later state that a script can be held to. -/
structure Changes (σ : Type) where
  allowed : σ → σ → Prop
  refl : ∀ state, allowed state state
  trans : ∀ {first second third}, allowed first second → allowed second third → allowed first third

/-- From one state: what comes second is held to the relation where the first part
has ended. -/
theorem Changes.bind_from (changes : Changes σ) {first : Script σ ε β} {next : β → Script σ ε α} {state : σ}
    (head : changes.allowed state (first.exec state).2)
    (rest : ∀ value after, first.exec state = (.ok value, after) → changes.allowed after ((next value).exec after).2) :
    changes.allowed state ((first >>= next).exec state).2 := by
  rw [exec_bind]
  cases ended : first.exec state with
  | mk result after =>
    rw [ended] at head
    cases result with
    | ok value => exact changes.trans head (rest value after ended)
    | error error => exact head

def Within (changes : Changes σ) (script : Script σ ε α) : Prop := ∀ state, changes.allowed state (script.exec state).2

namespace Within

variable {changes : Changes σ} {script : Script σ ε α}

protected theorem pure (value : α) : Within changes (Pure.pure value : Script σ ε α) := fun state => changes.refl state

protected theorem throw (error : ε) : Within changes (throw error : Script σ ε α) := fun state => changes.refl state

protected theorem ofExcept (result : Except ε α) : Within changes (ofExcept result : Script σ ε α) := fun state => changes.refl state

protected theorem get : Within changes (get : Script σ ε σ) := fun state => changes.refl state

protected theorem modify {change : σ → σ} (allowed : ∀ state, changes.allowed state (change state)) :
    Within changes (modify change : Script σ ε PUnit) := allowed

protected theorem bind {first : Script σ ε β} {next : β → Script σ ε α} (head : Within changes first)
    (rest : ∀ value, Within changes (next value)) : Within changes (first >>= next) :=
  fun state => changes.bind_from (head state) fun value after _ => rest value after

protected theorem map {body : Script σ ε β} (held : Within changes body) (change : β → α) :
    Within changes (change <$> body) := by
  rw [map_eq_pure_bind]
  exact Within.bind held fun value => Within.pure (change value)

protected theorem tryCatch {body : Script σ ε α} {handler : ε → Script σ ε α} (held : Within changes body)
    (handled : ∀ error, Within changes (handler error)) : Within changes (tryCatch body handler) := by
  intro state
  have done := held state
  rw [exec_tryCatch]
  cases ended : body.exec state with
  | mk result after =>
    rw [ended] at done
    cases result with
    | ok value => exact done
    | error error => exact changes.trans done (handled error after)

/-- What follows is held to the relation from the state it has read. -/
theorem get_bind {next : σ → Script σ ε α} (rest : ∀ state, changes.allowed state ((next state).exec state).2) :
    Within changes (get >>= next) := by
  intro state
  rw [exec_bind, exec_get]
  exact rest state

protected theorem forM {body : β → Script σ ε PUnit} {items : List β} (each : ∀ item ∈ items, Within changes (body item)) :
    Within changes (items.forM body) := by
  induction items with
  | nil => exact fun state => changes.refl state
  | cons item items ih =>
    have first := each item List.mem_cons_self
    have rest := ih fun other member => each other (List.mem_cons_of_mem item member)
    exact Within.bind first fun _ => rest

end Within

end SblPayload.Library.Script
