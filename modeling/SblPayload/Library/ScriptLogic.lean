import Mathlib.Data.List.Basic

/-! Scripts that change a state and end by returning or by an exception. An
exception does not undo what was done before it, so an assertion about a script
has two outcomes, and both speak about the state left behind. -/

namespace SblPayload.Library

abbrev Script (σ ε α : Type) := ExceptT ε (StateM σ) α

namespace Script

variable {σ ε α β : Type}

def exec (script : Script σ ε α) (state : σ) : Except ε α × σ := (ExceptT.run script).run state

def ofExcept (result : Except ε α) : Script σ ε α := ExceptT.mk (pure result)

@[simp] theorem exec_ofExcept (result : Except ε α) (state : σ) :
    (ofExcept result : Script σ ε α).exec state = (result, state) := rfl

@[simp] theorem exec_pure (value : α) (state : σ) :
    (pure value : Script σ ε α).exec state = (.ok value, state) := rfl

@[simp] theorem exec_throw (error : ε) (state : σ) :
    (throw error : Script σ ε α).exec state = (.error error, state) := rfl

@[simp] theorem exec_get (state : σ) : (get : Script σ ε σ).exec state = (.ok state, state) := rfl

@[simp] theorem exec_set (state next : σ) : (set next : Script σ ε PUnit).exec state = (.ok ⟨⟩, next) := rfl

@[simp] theorem exec_modify (change : σ → σ) (state : σ) :
    (modify change : Script σ ε PUnit).exec state = (.ok ⟨⟩, change state) := rfl

theorem exec_bind (first : Script σ ε α) (next : α → Script σ ε β) (state : σ) :
    (first >>= next).exec state =
      match first.exec state with
      | (.ok value, after) => (next value).exec after
      | (.error error, after) => (.error error, after) := by
  change ExceptT.bindCont next (first.exec state).1 (first.exec state).2 = _
  cases first.exec state with
  | mk result after => cases result <;> rfl

theorem exec_bind_returned {first : Script σ ε α} {next : α → Script σ ε β} {state last : σ} {value : β}
    (returned : (first >>= next).exec state = (.ok value, last)) :
    ∃ between middle, first.exec state = (.ok between, middle) ∧ (next between).exec middle = (.ok value, last) := by
  rw [exec_bind] at returned
  cases ended : first.exec state with
  | mk result middle =>
    rw [ended] at returned
    cases result with
    | ok between => exact ⟨between, middle, rfl, returned⟩
    | error error => cases returned

theorem exec_map (change : α → β) (script : Script σ ε α) (state : σ) :
    (change <$> script).exec state =
      match script.exec state with
      | (.ok value, after) => (.ok (change value), after)
      | (.error error, after) => (.error error, after) := by
  rw [map_eq_pure_bind, exec_bind]
  rfl

theorem exec_tryCatch (body : Script σ ε α) (handler : ε → Script σ ε α) (state : σ) :
    (tryCatch body handler).exec state =
      match body.exec state with
      | (.ok value, after) => (.ok value, after)
      | (.error error, after) => (handler error).exec after := by
  change @ExceptT.run ε (StateM σ) α (match (body.exec state).1 with
    | .ok value => pure value
    | .error error => handler error) (body.exec state).2 = _
  cases body.exec state with
  | mk result after => cases result <;> rfl

def ensure (holds : Bool) (error : ε) : Script σ ε PUnit := if holds then pure ⟨⟩ else throw error

theorem exec_ensure (holds : Bool) (error : ε) (state : σ) :
    (ensure holds error : Script σ ε PUnit).exec state = (if holds then .ok ⟨⟩ else .error error, state) := by
  cases holds <;> rfl

/-- What is so at a check is so at the end, if what follows the check keeps it. -/
theorem ensure_keeps {kept : σ → Prop} {holds : Bool} {error : ε} {next : PUnit → Script σ ε α} {state : σ}
    (now : kept state) (later : holds = true → kept ((next ⟨⟩).exec state).2) :
    kept ((ensure holds error >>= next).exec state).2 := by
  rw [exec_bind, exec_ensure]
  cases holds with
  | false => exact now
  | true => exact later rfl

def Ends (post : α → σ → Prop) (raised : ε → σ → Prop) : Except ε α × σ → Prop
  | (.ok value, state) => post value state
  | (.error error, state) => raised error state

/-- From every state satisfying `pre` the script ends, by returning in `post` or
by raising in `raised`. -/
def Contract (pre : σ → Prop) (script : Script σ ε α) (post : α → σ → Prop) (raised : ε → σ → Prop) : Prop :=
  ∀ state, pre state → Ends post raised (script.exec state)

namespace Contract

variable {pre : σ → Prop} {post : α → σ → Prop} {raised : ε → σ → Prop} {script : Script σ ε α}

theorem pure {value : α} (holds : ∀ state, pre state → post value state) :
    Contract pre (Pure.pure value : Script σ ε α) post raised := holds

theorem bind {middle : β → σ → Prop} {first : Script σ ε β} {next : β → Script σ ε α}
    (head : Contract pre first middle raised) (rest : ∀ value, Contract (middle value) (next value) post raised) :
    Contract pre (first >>= next) post raised := by
  intro state held
  have outcome := head state held
  rw [exec_bind]
  cases ended : first.exec state with
  | mk result after =>
    rw [ended] at outcome
    cases result with
    | ok value => exact rest value after outcome
    | error error => exact outcome

theorem assuming {fact : Prop} (valid : fact → Contract pre script post raised) :
    Contract (fun state => fact ∧ pre state) script post raised :=
  fun state held => valid held.1 state held.2

end Contract

/-- From this state the script returns exactly when `good`, and then it is known
what it returns and what it leaves. -/
def Leads (script : Script σ ε α) (state : σ) (good : Prop) (value : α) (last : σ) : Prop :=
  Ends (fun result after => good ∧ result = value ∧ after = last) (fun _ _ => ¬ good) (script.exec state)

namespace Leads

variable {script : Script σ ε α} {state middle last : σ} {good also : Prop} {value : α}

theorem of_exec (ended : script.exec state = (.ok value, last)) : Leads script state True value last := by
  unfold Leads
  rw [ended]
  exact ⟨trivial, rfl, rfl⟩

theorem of_error {error : ε} (ended : script.exec state = (.error error, middle)) :
    Leads script state False value last := by
  unfold Leads
  rw [ended]
  exact id

theorem congr (leads : Leads script state good value last) (same : good ↔ also) :
    Leads script state also value last := by
  rw [← propext same]
  exact leads

theorem bind {first : Script σ ε β} {next : β → Script σ ε α} {between : β}
    (head : Leads first state good between middle) (rest : good → Leads (next between) middle also value last) :
    Leads (first >>= next) state (good ∧ also) value last := by
  unfold Leads at head ⊢
  rw [exec_bind]
  cases ended : first.exec state with
  | mk result after =>
    rw [ended] at head
    cases result with
    | error error => exact fun both => head both.1
    | ok found =>
      obtain ⟨held, rfl, rfl⟩ := head
      change Ends _ _ ((next found).exec after)
      have outcome := rest held
      unfold Leads at outcome
      cases finished : (next found).exec after with
      | mk result final =>
        rw [finished] at outcome
        cases result with
        | error error => exact fun both => outcome both.2
        | ok value => exact ⟨⟨held, outcome.1⟩, outcome.2⟩

theorem step {first : Script σ ε β} {next : β → Script σ ε α} {between : β}
    (ended : first.exec state = (.ok between, middle)) (rest : Leads (next between) middle good value last) :
    Leads (first >>= next) state good value last :=
  ((of_exec ended).bind fun _ => rest).congr (iff_of_eq (true_and good))

theorem finish {first : Script σ ε β} {next : β → Script σ ε α} {between : β}
    (head : Leads first state good between middle) (ended : good → (next between).exec middle = (.ok value, last)) :
    Leads (first >>= next) state good value last :=
  (head.bind fun held => of_exec (ended held)).congr (iff_of_eq (and_true good))

def All (holds : β → σ → Prop) (step : σ → β → σ) : List β → σ → Prop
  | [], _ => True
  | item :: rest, state => holds item state ∧ All holds step rest (step state item)

theorem forM {body : β → Script σ ε PUnit} {holds : β → σ → Prop} {step : σ → β → σ}
    (each : ∀ item state, Leads (body item) state (holds item state) ⟨⟩ (step state item)) (items : List β) :
    Leads (items.forM body) state (All holds step items state) ⟨⟩ (items.foldl step state) := by
  induction items generalizing state with
  | nil => exact of_exec rfl
  | cons item items ih => exact (each item state).bind fun _ => ih

theorem returns_iff (leads : Leads script state good value last) :
    script.exec state = (.ok value, last) ↔ good := by
  unfold Leads at leads
  cases ended : script.exec state with
  | mk result after =>
    rw [ended] at leads
    cases result with
    | ok found =>
      obtain ⟨held, rfl, rfl⟩ := leads
      exact Iff.intro (fun _ => held) (fun _ => rfl)
    | error error =>
      refine Iff.intro (fun impossible => ?_) (fun held => absurd held leads)
      injection impossible with same _
      cases same

theorem exec_eq (leads : Leads script state good value last) (held : good) : script.exec state = (.ok value, last) :=
  leads.returns_iff.mpr held

theorem returned (leads : Leads script state good value last) {result : α} {after : σ}
    (ended : script.exec state = (.ok result, after)) : good ∧ result = value ∧ after = last := by
  unfold Leads at leads
  rw [ended] at leads
  exact leads

end Leads

def Raises (script : Script σ ε α) (state : σ) : Prop := ∀ value last, script.exec state ≠ (.ok value, last)

namespace Raises

variable {first : Script σ ε β} {next : β → Script σ ε α} {state middle : σ}

theorem of_exec {script : Script σ ε α} {error : ε} (ended : script.exec state = (.error error, middle)) :
    Raises script state := by
  intro value last returned
  rw [ended] at returned
  cases returned

theorem bind (raises : Raises first state) (next : β → Script σ ε α) : Raises (first >>= next) state := by
  intro value last returned
  rw [exec_bind] at returned
  cases ended : first.exec state with
  | mk result after =>
    rw [ended] at returned
    cases result with
    | ok found => exact raises found after ended
    | error error => cases returned

theorem later {good : Prop} {between : β} (leads : Leads first state good between middle)
    (raises : good → Raises (next between) middle) : Raises (first >>= next) state := by
  intro value last returned
  rw [exec_bind] at returned
  cases ended : first.exec state with
  | mk result after =>
    rw [ended] at returned
    cases result with
    | ok found =>
      obtain ⟨held, rfl, rfl⟩ := leads.returned ended
      exact raises held value last returned
    | error error => cases returned

end Raises

end Script

end SblPayload.Library
