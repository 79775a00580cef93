import SblPayload.MicroPython.Main

/-! The pages of a run. What a call of `pyb.load_file` leaves behind depends on the
call alone, so a run is a fold over the calls it makes, however its scripts branch
and wherever they catch exceptions. -/

namespace SblPayload.Proofs.PageAccounting
open Library MicroPython Script

variable {arch : Arch} {memory : Memory}

def returns (call : LoadCall arch) : Bool := call.path.str.isSome && call.allocates

def callsMade : Activity arch → List (LoadCall arch)
  | .done => []
  | .raise _ => []
  | .load call next caught => call :: if returns call then callsMade next else callsMade caught

def pagesAfter (memory : Memory) (pages : Ledger (Word arch × Nat)) (call : LoadCall arch) : Ledger (Word arch × Nat) :=
  if call.path.str.isSome ∧ call.loaded.buffer ≠ 0 then
    let resource := (call.loaded.buffer, memory.sizeToPages call.loaded.length)
    if call.allocates then (pages.obtain resource).release resource else pages.obtain resource
  else pages

def copiedAfter (memory : Memory) (copied : List (Word arch × BitVec 32)) (call : LoadCall arch) :
    List (Word arch × BitVec 32) :=
  if returns call ∧ (call.loaded.buffer ≠ 0 ∨ memory.readsNull) then
    copied ++ [(call.loaded.buffer, call.loaded.length)]
  else copied

def after (memory : Memory) (services : Services arch) (call : LoadCall arch) : Services arch :=
  let pages := pagesAfter memory services.pages call
  ⟨pages, copiedAfter memory services.copied call, services.calls ++ [(services.pages.held, pages.held)]⟩

/-- A call without a string argument stops before `LoadFile`, one without room for
the copy after it: then the pages are not given back. -/
theorem exec_pybLoadFile (call : LoadCall arch) (services : Services arch) :
    ((pybLoadFile memory call).exec services).2 =
        { services with pages := pagesAfter memory services.pages call, copied := copiedAfter memory services.copied call } ∧
      (((pybLoadFile memory call).exec services).1.isOk = returns call) := by
  cases path : call.path.str with
  | none => simp [pybLoadFile, exec_bind, mpObjStrGetStr, path, pagesAfter, copiedAfter, returns, Except.isOk, Except.toBool]
  | some text =>
    have null := eq_or_ne call.loaded.buffer (.ofNat arch.bits 0)
    cases room : call.allocates with
    | false =>
      rcases null with null | null <;>
        simp [pybLoadFile, exec_bind, mpObjStrGetStr, path, loadFile, mpObjNewBytes, exec_ensure, room, null,
          pagesAfter, copiedAfter, returns, Except.isOk, Except.toBool]
    | true =>
      rcases null with null | null <;> cases guard : memory.readsNull <;>
        simp [pybLoadFile, exec_bind, exec_map, mpObjStrGetStr, path, loadFile, mpObjNewBytes, exec_ensure, room, null,
          guard, pagesAfter, copiedAfter, returns, freePages, Except.isOk, Except.toBool]

theorem exec_observedLoad (call : LoadCall arch) (services : Services arch) :
    (observedLoad memory call).exec services = (.ok (returns call), after memory services call) := by
  obtain ⟨state, ended⟩ := @exec_pybLoadFile _ memory call services
  unfold observedLoad
  rw [exec_bind, exec_get]
  dsimp only
  rw [exec_bind, exec_tryCatch, exec_bind]
  cases finished : (pybLoadFile memory call).exec services with
  | mk result final =>
    rw [finished] at state ended
    dsimp only at state
    rw [state]
    cases result with
    | ok value => rw [← ended]; rfl
    | error error => rw [← ended]; rfl

theorem exec_run (script : Activity arch) (services : Services arch) :
    ∃ result, (script.run memory).exec services = (result, (callsMade script).foldl (after memory) services) := by
  induction script generalizing services with
  | done => exact ⟨.ok ⟨⟩, rfl⟩
  | raise error => exact ⟨.error error, rfl⟩
  | load call next caught nextRuns caughtRuns =>
    rw [Activity.run, exec_bind, exec_observedLoad, callsMade, List.foldl_cons]
    cases returns call with
    | true => exact nextRuns (after memory services call)
    | false => exact caughtRuns (after memory services call)

theorem exec_doStr (script : Activity arch) (services : Services arch) :
    (doStr memory script).exec services = (.ok ⟨⟩, (callsMade script).foldl (after memory) services) := by
  obtain ⟨result, ended⟩ := @exec_run _ memory script services
  rw [doStr, exec_tryCatch, ended]
  cases result <;> rfl

theorem exec_repl (lines : List (Activity arch)) (services : Services arch) :
    (pyexecFriendlyRepl memory lines).exec services =
      (.ok ⟨⟩, (lines.flatMap callsMade).foldl (after memory) services) := by
  unfold pyexecFriendlyRepl
  induction lines generalizing services with
  | nil => rfl
  | cons line lines ih =>
    change Script.exec (doStr memory line >>= fun _ => lines.forM (doStr memory)) services = _
    rw [exec_bind, exec_doStr, List.flatMap_cons, List.foldl_append]
    exact ih _

def runCalls (startScript : Activity arch) (lines : List (Activity arch)) : List (LoadCall arch) :=
  callsMade startScript ++ lines.flatMap callsMade

theorem exec_main (heap : { buffer : Word arch // buffer ≠ 0 }) (startScript : Activity arch)
    (lines : List (Activity arch)) (services : Services arch) :
    let pages := memory.sizeToPages heapSize
    let started := { services with pages := services.pages.obtain (heap.val, pages) }
    let used := (runCalls startScript lines).foldl (after memory) started
    (main memory heap startScript lines).exec services =
      (.ok ⟨⟩, { used with pages := used.pages.release (heap.val, pages) }) := by
  intro pages started used
  have split : used = (lines.flatMap callsMade).foldl (after memory)
      ((callsMade startScript).foldl (after memory) started) := List.foldl_append
  unfold main
  rw [exec_bind]
  change Script.exec (doStr memory startScript >>= _) started = _
  rw [exec_bind, exec_doStr]
  dsimp only
  rw [exec_bind, exec_repl, split]
  rfl

/-- The call gives back what it obtains, and copies from nothing but a buffer. -/
def Harmless (memory : Memory) (call : LoadCall arch) : Prop :=
  call.path.str.isSome →
    (call.loaded.buffer ≠ 0 → call.allocates = true) ∧
      (call.loaded.buffer = 0 → call.allocates = true → memory.readsNull = true → call.loaded.length = 0)

instance (call : LoadCall arch) : Decidable (Harmless memory call) := by
  unfold Harmless
  infer_instance

/-- Every call so far left the pages held as they were, and every byte copied came
from a buffer. -/
structure Balanced (services : Services arch) : Prop where
  pages : ∀ entry ∈ services.calls, entry.1 = entry.2
  copies : ∀ copy ∈ services.copied, copy.2 ≠ 0 → copy.1 ≠ 0

theorem held_after_iff (pages : Ledger (Word arch × Nat)) (call : LoadCall arch) :
    pages.held = (pagesAfter memory pages call).held ↔
      (call.path.str.isSome → call.loaded.buffer ≠ 0 → call.allocates = true) := by
  unfold pagesAfter
  by_cases opened : call.path.str.isSome ∧ call.loaded.buffer ≠ 0
  · rw [if_pos opened]
    cases room : call.allocates with
    | true => exact iff_of_true (Ledger.obtain_release _ _).symm fun _ _ => rfl
    | false =>
      refine iff_of_false (Ledger.held_ne_of_obtain _ _) fun needed => ?_
      exact absurd (needed opened.1 opened.2) (by decide)
  · rw [if_neg opened]
    exact iff_of_true rfl fun path buffer => absurd ⟨path, buffer⟩ opened

theorem copied_after_iff (copied : List (Word arch × BitVec 32)) (call : LoadCall arch) :
    (∀ copy ∈ copiedAfter memory copied call, copy.2 ≠ 0 → copy.1 ≠ 0) ↔
      (∀ copy ∈ copied, copy.2 ≠ 0 → copy.1 ≠ 0) ∧ (call.path.str.isSome → call.loaded.buffer = 0 →
        call.allocates = true → memory.readsNull = true → call.loaded.length = 0) := by
  unfold copiedAfter
  by_cases copies : returns call ∧ (call.loaded.buffer ≠ 0 ∨ memory.readsNull)
  · rw [if_pos copies]
    obtain ⟨path, room⟩ := (Bool.and_eq_true ..).mp copies.1
    simp only [List.mem_append, List.mem_singleton, or_imp, forall_and, forall_eq]
    refine and_congr_right fun _ => ?_
    constructor
    · intro safe _ null _ _
      by_contra nonzero
      exact safe nonzero null
    · intro empty nonzero null
      have reads := copies.2.resolve_left (absurd null)
      exact nonzero (empty path null room reads)
  · rw [if_neg copies]
    refine (and_iff_left fun path null room reads => ?_).symm
    exact absurd ⟨(Bool.and_eq_true ..).mpr ⟨path, room⟩, Or.inr reads⟩ copies

theorem balanced_after_iff (services : Services arch) (call : LoadCall arch) :
    Balanced (after memory services call) ↔ Balanced services ∧ Harmless memory call := by
  have entries : (∀ entry ∈ (after memory services call).calls, entry.1 = entry.2) ↔
      (∀ entry ∈ services.calls, entry.1 = entry.2) ∧
        (call.path.str.isSome → call.loaded.buffer ≠ 0 → call.allocates = true) := by
    simp only [after, List.mem_append, List.mem_singleton, or_imp, forall_and, forall_eq]
    exact and_congr_right fun _ => held_after_iff services.pages call
  constructor
  · intro ⟨pages, copies⟩
    obtain ⟨earlier, room⟩ := entries.mp pages
    obtain ⟨before, empty⟩ := (copied_after_iff _ _).mp copies
    exact ⟨⟨earlier, before⟩, fun path => ⟨room path, empty path⟩⟩
  · intro ⟨⟨pages, copies⟩, harmless⟩
    refine ⟨entries.mpr ⟨pages, fun path => (harmless path).1⟩, (copied_after_iff _ _).mpr ⟨copies, fun path => ?_⟩⟩
    exact (harmless path).2

theorem balanced_foldl_iff (calls : List (LoadCall arch)) (services : Services arch) :
    Balanced (calls.foldl (after memory) services) ↔ Balanced services ∧ ∀ call ∈ calls, Harmless memory call := by
  induction calls generalizing services with
  | nil => simp
  | cons call calls ih => rw [List.foldl_cons, ih, balanced_after_iff, List.forall_mem_cons, and_assoc]

theorem conserved_after {services : Services arch} (conserved : services.pages.Conserved) (call : LoadCall arch) :
    (after memory services call).pages.Conserved := by
  change (pagesAfter memory services.pages call).Conserved
  unfold pagesAfter
  by_cases opened : call.path.str.isSome ∧ call.loaded.buffer ≠ 0
  · rw [if_pos opened]
    have obtained := conserved.obtain (call.loaded.buffer, memory.sizeToPages call.loaded.length)
    cases room : call.allocates with
    | true => exact obtained.release (Multiset.mem_cons_self _ _)
    | false => exact obtained
  · rw [if_neg opened]
    exact conserved

theorem conserved_foldl (calls : List (LoadCall arch)) {services : Services arch}
    (conserved : services.pages.Conserved) : (calls.foldl (after memory) services).pages.Conserved := by
  induction calls generalizing services with
  | nil => exact conserved
  | cons call calls ih => exact ih (conserved_after conserved call)

theorem held_foldl {calls : List (LoadCall arch)} {services : Services arch}
    (harmless : ∀ call ∈ calls, Harmless memory call) :
    (calls.foldl (after memory) services).pages.held = services.pages.held := by
  induction calls generalizing services with
  | nil => rfl
  | cons call calls ih =>
    rw [List.foldl_cons, ih fun other member => harmless other (List.mem_cons_of_mem _ member)]
    have here := harmless call List.mem_cons_self
    exact ((held_after_iff services.pages call).mpr fun path => (here path).1).symm

def fresh : Services arch := ⟨Ledger.empty, [], []⟩

/-- The balance of a whole run of `main`: around every call, in every copy, and at
the end, when all that was obtained has been given back once. -/
def Accounted (memory : Memory) (heap : { buffer : Word arch // buffer ≠ 0 }) (startScript : Activity arch)
    (lines : List (Activity arch)) : Prop :=
  ∃ last, (main memory heap startScript lines).exec fresh = (.ok ⟨⟩, last) ∧ Balanced last ∧
    last.pages.released = last.pages.obtained

section Main

variable {heap : { buffer : Word arch // buffer ≠ 0 }} {startScript : Activity arch} {lines : List (Activity arch)}

def started (memory : Memory) (heap : { buffer : Word arch // buffer ≠ 0 }) : Services arch :=
  ⟨Ledger.empty.obtain (heap.val, memory.sizeToPages heapSize), [], []⟩

theorem started_balanced : Balanced (started memory heap) :=
  ⟨fun _ none => absurd none List.not_mem_nil, fun _ none => absurd none List.not_mem_nil⟩

theorem harmless_of_accounted (accounted : Accounted memory heap startScript lines) :
    ∀ call ∈ runCalls startScript lines, Harmless memory call := by
  obtain ⟨last, returned, balanced, _⟩ := accounted
  rw [exec_main] at returned
  cases returned
  exact ((balanced_foldl_iff _ (started memory heap)).mp ⟨balanced.pages, balanced.copies⟩).2

theorem accounted_of_harmless (harmless : ∀ call ∈ runCalls startScript lines, Harmless memory call) :
    Accounted memory heap startScript lines := by
  have balanced := (balanced_foldl_iff _ (started memory heap)).mpr ⟨started_balanced, harmless⟩
  refine ⟨_, exec_main heap startScript lines fresh, ⟨balanced.pages, balanced.copies⟩, ?_⟩
  have initial : (started memory heap).pages.Conserved := Ledger.conserved_empty.obtain _
  have held : ((runCalls startScript lines).foldl (after memory) (started memory heap)).pages.held =
      {(heap.val, memory.sizeToPages heapSize)} := held_foldl harmless
  refine ((conserved_foldl _ initial).release ?_).settled ?_
  · rw [held]
    exact Multiset.mem_singleton_self _
  · rw [Ledger.release_held, held, Multiset.erase_singleton]

end Main

/-- A run of `main` is balanced exactly when all calls of `pyb.load_file` it makes
are harmless: no image is left behind by an exception, and no NULL image is read. -/
theorem pages_accounted_iff (memory : Memory) (heap : { buffer : Word arch // buffer ≠ 0 })
    (startScript : Activity arch) (lines : List (Activity arch)) :
    Accounted memory heap startScript lines ↔ ∀ call ∈ runCalls startScript lines, Harmless memory call :=
  ⟨harmless_of_accounted, accounted_of_harmless⟩

def plainMemory : Memory := ⟨fun size => (size.toNat + 4095) / 4096, true⟩

def tooLarge : LoadCall .x64 where
  path := ⟨none, none, some "!SETP/STPY".toList⟩
  loaded := ⟨0, 0x7f000000, 0x2000⟩
  allocates := false

/-- The start script gets a MemoryError, the REPL is left at once. -/
theorem image_left_behind : ¬ Accounted plainMemory ⟨0x10000000, by decide⟩ (.load tooLarge .done (.raise .memoryError)) [] := by
  intro accounted
  have harmless := harmless_of_accounted accounted tooLarge List.mem_cons_self
  exact absurd harmless (by decide)

end SblPayload.Proofs.PageAccounting
