import SblPayload.Library.ScriptLogic

/-! The events a script records, against the steps it is known to take. A script that
returns has taken all of them; one that raises has taken the first of them, and the
exception tells whether the last one failed. -/

namespace SblPayload.Library.Script

variable {σ ε α β Event Step : Type}

/-- How events are recorded: which step one is, whether it passed, and which exceptions
an event that did not pass ends the script with. -/
structure Recorder (σ ε Event Step : Type) where
  log : σ → List Event
  step : Event → Step
  Passed : Event → Prop
  Failure : ε → Prop

namespace Recorder

variable (recorder : Recorder σ ε Event Step)

structure Completed (steps : List Step) (done : List Event) : Prop where
  all : done.map recorder.step = steps
  passed : ∀ event ∈ done, recorder.Passed event

/-- An exception of another kind leaves events that passed; one of a failed event
leaves that event as the last. -/
inductive Stopped (steps : List Step) : ε → List Event → Prop where
  | interrupted {error : ε} {done : List Event} (other : ¬ recorder.Failure error)
      (early : done.map recorder.step <+: steps) (passed : ∀ event ∈ done, recorder.Passed event) :
      Stopped steps error done
  | failed {error : ε} {done : List Event} {last : Event} (failure : recorder.Failure error)
      (early : (done ++ [last]).map recorder.step <+: steps) (passed : ∀ event ∈ done, recorder.Passed event)
      (fails : ¬ recorder.Passed last) : Stopped steps error (done ++ [last])

/-- What has been recorded when the script stops, however it stops. -/
def Outcome (steps : List Step) (before : σ) : Except ε α × σ → Prop
  | (.ok _, after) => ∃ done, recorder.log after = recorder.log before ++ done ∧ recorder.Completed steps done
  | (.error error, after) => ∃ done, recorder.log after = recorder.log before ++ done ∧ recorder.Stopped steps error done

def Follows (steps : List Step) (script : Script σ ε α) : Prop :=
  ∀ state, recorder.Outcome steps state (script.exec state)

end Recorder

namespace Recorder

variable {recorder : Recorder σ ε Event Step} {steps more : List Step}

theorem Completed.nil : recorder.Completed [] [] := ⟨rfl, List.forall_mem_nil _⟩

theorem Completed.append {first second : List Event} (head : recorder.Completed steps first)
    (rest : recorder.Completed more second) : recorder.Completed (steps ++ more) (first ++ second) := by
  constructor
  · rw [List.map_append, head.all, rest.all]
  · intro event member
    rcases List.mem_append.mp member with early | late
    · exact head.passed event early
    · exact rest.passed event late

theorem Stopped.widen {error : ε} {done : List Event} (stopped : recorder.Stopped steps error done) (more : List Step) :
    recorder.Stopped (steps ++ more) error done := by
  have within := List.prefix_append steps more
  cases stopped with
  | interrupted other early passed => exact .interrupted other (early.trans within) passed
  | failed failure early passed fails => exact .failed failure (early.trans within) passed fails

theorem Completed.stopped {error : ε} {first second : List Event} (head : recorder.Completed steps first)
    (rest : recorder.Stopped more error second) : recorder.Stopped (steps ++ more) error (first ++ second) := by
  have both {done : List Event} (passed : ∀ event ∈ done, recorder.Passed event) :
      ∀ event ∈ first ++ done, recorder.Passed event := by
    intro event member
    exact (List.mem_append.mp member).elim (head.passed event) (passed event)
  have within {done : List Event} (early : done.map recorder.step <+: more) :
      (first ++ done).map recorder.step <+: steps ++ more := by
    rw [List.map_append, head.all]
    exact (List.prefix_append_right_inj steps).mpr early
  cases rest with
  | interrupted other early passed => exact .interrupted other (within early) (both passed)
  | @failed done last failure early passed fails =>
    rw [← List.append_assoc]
    exact .failed failure (by rw [List.append_assoc]; exact within early) (both passed) fails

theorem Outcome.quiet {before after : σ} (same : recorder.log after = recorder.log before) {value : α} :
    recorder.Outcome [] before ((.ok value, after) : Except ε α × σ) :=
  ⟨[], same.trans (List.append_nil _).symm, Completed.nil⟩

theorem Outcome.raise {before after : σ} {error : ε} (same : recorder.log after = recorder.log before)
    (other : ¬ recorder.Failure error) : recorder.Outcome steps before ((.error error, after) : Except ε α × σ) :=
  ⟨[], same.trans (List.append_nil _).symm, .interrupted other List.nil_prefix (List.forall_mem_nil _)⟩

protected theorem Follows.pure (value : α) : recorder.Follows [] (Pure.pure value : Script σ ε α) :=
  fun _ => Outcome.quiet rfl

protected theorem Follows.modify {change : σ → σ} (kept : ∀ state, recorder.log (change state) = recorder.log state) :
    recorder.Follows [] (modify change : Script σ ε PUnit) :=
  fun state => Outcome.quiet (kept state)

protected theorem Follows.ofExcept {result : Except ε α} (other : ∀ error, result = .error error → ¬ recorder.Failure error) :
    recorder.Follows [] (ofExcept result : Script σ ε α) := by
  intro state
  cases result with
  | ok value => exact Outcome.quiet rfl
  | error error => exact Outcome.raise rfl (other error rfl)

/-- What follows is held to the steps from the state it has read. -/
theorem Follows.get_bind {next : σ → Script σ ε α}
    (rest : ∀ state, recorder.Outcome steps state ((next state).exec state)) :
    recorder.Follows steps (MonadState.get >>= next) := by
  intro state
  rw [exec_bind, exec_get]
  exact rest state

protected theorem Follows.bind {first : Script σ ε β} {next : β → Script σ ε α} (head : recorder.Follows steps first)
    (rest : ∀ value, recorder.Follows more (next value)) : recorder.Follows (steps ++ more) (first >>= next) := by
  intro state
  have early := head state
  rw [exec_bind]
  cases ended : first.exec state with
  | mk result middle =>
    rw [ended] at early
    cases result with
    | error error =>
      obtain ⟨done, recorded, stopped⟩ := early
      exact ⟨done, recorded, stopped.widen more⟩
    | ok value =>
      obtain ⟨done, recorded, completed⟩ := early
      have late := rest value middle
      dsimp only
      cases finished : (next value).exec middle with
      | mk result after =>
        rw [finished] at late
        have joined {later : List Event} (added : recorder.log after = recorder.log middle ++ later) :
            recorder.log after = recorder.log state ++ (done ++ later) := by
          rw [added, recorded, List.append_assoc]
        cases result with
        | ok value =>
          obtain ⟨later, added, through⟩ := late
          exact ⟨done ++ later, joined added, completed.append through⟩
        | error error =>
          obtain ⟨later, added, stopped⟩ := late
          exact ⟨done ++ later, joined added, completed.stopped stopped⟩

/-- What comes before records nothing. -/
theorem Follows.after {first : Script σ ε β} {next : β → Script σ ε α} (head : recorder.Follows [] first)
    (rest : ∀ value, recorder.Follows steps (next value)) : recorder.Follows steps (first >>= next) := head.bind rest

/-- What comes after records nothing. -/
theorem Follows.before {first : Script σ ε β} {next : β → Script σ ε α} (head : recorder.Follows steps first)
    (rest : ∀ value, recorder.Follows [] (next value)) : recorder.Follows steps (first >>= next) := by
  have both := head.bind rest
  rwa [List.append_nil] at both

protected theorem Follows.forM {body : β → Script σ ε PUnit} {planned : β → List Step}
    (each : ∀ item, recorder.Follows (planned item) (body item)) (items : List β) :
    recorder.Follows (items.flatMap planned) (items.forM body) := by
  induction items with
  | nil => exact Follows.pure _
  | cons item items ih => exact (each item).bind fun _ => ih

end Recorder

end SblPayload.Library.Script
