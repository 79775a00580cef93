import SblPayload.Proofs.GenhdrSteps

/-! Which failing runs stop `main`, and which do not. The runs are numbered in the
order `main` makes them, so the failures of a whole run are one function. -/

namespace SblPayload.Proofs.GenhdrStatus
open Library Text Script Genhdr

variable {tools : Tools} {host : Host} {world : World} {status : Nat → Nat}

/-- The exit status of a run depends on its turn only. -/
def Assigns (tools : Tools) (status : Nat → Nat) : Prop :=
  ∀ turn invocation, (tools.run turn invocation).returncode = status turn

theorem Assigns.succeeds (assigned : Assigns tools status) (invocation : Invocation) :
    Succeeds tools world invocation ↔ status world.runs.length = 0 := by
  unfold Succeeds
  rw [assigned]

section Turns

theorem preprocessed_turn (incs : List Text) (option src : Text) :
    (world.preprocessed tools host incs option src).runs.length = world.runs.length + 1 := by
  simp [World.preprocessed]

theorem split_turn (mode : Mode) (src : Text) :
    (world.split tools mode src).runs.length = world.runs.length + 1 := by
  simp [World.split]

theorem collectSource_turn (incs : List Text) (option src : Text) :
    (world.collectSource tools host incs option src).runs.length = world.runs.length + 4 := by
  simp [World.collectSource, split_turn, preprocessed_turn]

theorem sources_turn (incs : List Text) (option : Text) (sources : List Text) (start : World) :
    (sources.foldl (fun before src => before.collectSource tools host incs option src) start).runs.length =
      start.runs.length + 4 * sources.length := by
  induction sources generalizing start with
  | nil => simp
  | cons src sources ih =>
    rw [List.foldl_cons, ih, collectSource_turn, List.length_cons]
    omega

theorem catQstr_turn (dst predefined : Text) :
    (world.catQstr tools host dst predefined).runs.length = world.runs.length + 1 := by
  simp [World.catQstr, World.cat]

theorem expand_turn (file dst : Text) (incs : List Text) (option content : Text) :
    (world.expand tools host file dst incs option content).runs.length = world.runs.length + 1 := by
  simp [World.expand]

theorem genQstr_turn (file dst : Text) (incs : List Text) (option content : Text) :
    (world.genQstr tools host file dst incs option content).runs.length = world.runs.length + 2 := by
  simp [World.genQstr, expand_turn]

theorem catGenerate_turn (mode : Mode) (program : Option Text → Invocation) (file : Text) :
    (world.catGenerate tools mode program file).runs.length = world.runs.length + 2 := by
  simp [World.catGenerate, World.cat]

end Turns

def Recorded (status : Nat → Nat) (world : World) : Prop :=
  world.runs.map Prod.snd = (List.range world.runs.length).map status

theorem Recorded.after (assigned : Assigns tools status) (recorded : Recorded status world) (invocation : Invocation) :
    Recorded status (world.after tools invocation) := by
  unfold Recorded at recorded ⊢
  have code := assigned world.runs.length invocation
  rw [World.after_runs, List.map_append, recorded, List.length_append]
  simp [code, List.range_succ]

/-- The four runs for one source: the preprocessor and `split` for each kind. -/
theorem collectsSource_iff (assigned : Assigns tools status) (incs : List Text) (option src : Text) :
    CollectsSource tools host incs option src world ↔ ∀ turn < 4, status (world.runs.length + turn) = 0 := by
  simp only [CollectsSource, Splits, assigned.succeeds, split_turn, preprocessed_turn]
  constructor
  · intro ⟨zero, one, two, three⟩ turn below
    match turn, below with
    | 0, _ => exact zero
    | 1, _ => exact one
    | 2, _ => exact two
    | 3, _ => exact three
  · intro all
    exact ⟨all 0 (by decide), all 1 (by decide), all 2 (by decide), all 3 (by decide)⟩

theorem sources_all (assigned : Assigns tools status) (incs : List Text) (option : Text) (sources : List Text)
    (start : World) :
    Leads.All (CollectsSource tools host incs option)
      (fun before src => before.collectSource tools host incs option src) sources start ↔
      ∀ turn < 4 * sources.length, status (start.runs.length + turn) = 0 := by
  induction sources generalizing start with
  | nil => simp [Leads.All]
  | cons src sources ih =>
    rw [Leads.All, collectsSource_iff assigned, ih, collectSource_turn, List.length_cons]
    constructor
    · intro ⟨first, later⟩ turn below
      by_cases early : turn < 4
      · exact first turn early
      · have shifted := later (turn - 4) (by omega)
        rwa [show start.runs.length + 4 + (turn - 4) = start.runs.length + turn by omega] at shifted
    · intro all
      refine ⟨fun turn below => all turn (by omega), fun turn below => ?_⟩
      have shifted := all (4 + turn) (by omega)
      rwa [← Nat.add_assoc] at shifted

theorem sources_recorded (assigned : Assigns tools status) (incs : List Text) (option : Text) (sources : List Text)
    {start : World} (recorded : Recorded status start) :
    Recorded status (sources.foldl (fun before src => before.collectSource tools host incs option src) start) := by
  induction sources generalizing start with
  | nil => exact recorded
  | cons src sources ih =>
    have pp : Recorded status (start.preprocessed tools host incs option src) := recorded.after assigned _
    have qstr : Recorded status ((start.preprocessed tools host incs option src).split tools .qstr src) :=
      pp.after assigned _
    have modules : Recorded status (((start.preprocessed tools host incs option src).split tools .qstr src).split tools
      .module src) := qstr.after assigned _
    exact ih (modules.after assigned _)

theorem sources_fragments (incs : List Text) (option : Text) (sources : List Text) (start : World) (mode : Mode) :
    ((sources.foldl (fun before src => before.collectSource tools host incs option src) start).fragments mode).isSome ↔
      sources ≠ [] ∨ (start.fragments mode).isSome := by
  induction sources generalizing start with
  | nil => simp
  | cons src sources ih =>
    rw [List.foldl_cons, ih]
    cases mode <;> simp [World.collectSource, World.split]

def Present (plan : Plan) (world : World) : Prop :=
  plan.srcFiles ≠ [] ∨ (world.fragments .module).isSome ∧ (world.fragments .rootPointer).isSome

/-- The runs of `main` whose exit status is looked at. -/
def Checked (sources turn : Nat) : Prop := turn < 8 + 4 * sources ∧ turn ≠ 5 + 4 * sources ∧ turn ≠ 7 + 4 * sources

section Course

variable (plan : Plan) (predefined : Text)

theorem sourced_turn : (world.sourced tools host plan).runs.length = world.runs.length + 1 + 4 * plan.srcFiles.length := by
  rw [World.sourced, sources_turn]
  simp [World.prepared]

theorem qstrsCollected_turn :
    (world.qstrsCollected tools host plan predefined).runs.length = world.runs.length + 2 + 4 * plan.srcFiles.length := by
  rw [World.qstrsCollected, catQstr_turn, sourced_turn]
  omega

theorem qstrsGenerated_turn :
    (world.qstrsGenerated tools host plan predefined).runs.length = world.runs.length + 4 + 4 * plan.srcFiles.length := by
  rw [World.qstrsGenerated, genQstr_turn, qstrsCollected_turn]
  omega

theorem modulesGenerated_turn :
    (world.modulesGenerated tools host plan predefined).runs.length = world.runs.length + 6 + 4 * plan.srcFiles.length := by
  rw [World.modulesGenerated, catGenerate_turn, qstrsGenerated_turn]
  omega

theorem produced_turn :
    (world.produced tools host plan predefined).runs.length = world.runs.length + 8 + 4 * plan.srcFiles.length := by
  rw [World.produced, catGenerate_turn, modulesGenerated_turn]
  omega

theorem produced_recorded (assigned : Assigns tools status) (recorded : Recorded status world) :
    Recorded status (world.produced tools host plan predefined) := by
  have version : Recorded status (world.prepared tools) := recorded.after assigned _
  have sourced : Recorded status (world.sourced tools host plan) :=
    sources_recorded assigned plan.incPaths plan.ccOptions plan.srcFiles version
  have collected : Recorded status (world.qstrsCollected tools host plan predefined) := sourced.after assigned _
  have expanded : Recorded status ((world.qstrsCollected tools host plan predefined).expand tools host qstrFile
    collectedQstrFile plan.incPaths plan.ccOptions (world.qstrText tools host plan predefined)) :=
    collected.after assigned _
  have generated : Recorded status (world.qstrsGenerated tools host plan predefined) := expanded.after assigned _
  have catted : Recorded status ((world.qstrsGenerated tools host plan predefined).catted tools .module
    (moduleFile ++ ".tmp".toList)) := generated.after assigned _
  have modules : Recorded status (world.modulesGenerated tools host plan predefined) := catted.after assigned _
  have pointers : Recorded status ((world.modulesGenerated tools host plan predefined).catted tools .rootPointer
    (rootPointerFile ++ ".tmp".toList)) := modules.after assigned _
  exact pointers.after assigned _

theorem sourced_present (mode : Mode) : ((world.sourced tools host plan).fragments mode).isSome ↔
    mode = .qstr ∨ plan.srcFiles ≠ [] ∨ (world.fragments mode).isSome := by
  rw [World.sourced, sources_fragments]
  cases mode <;> simp [World.prepared]

theorem qstrsGenerated_fragments (mode : Mode) (other : mode ≠ .qstr) :
    (world.qstrsGenerated tools host plan predefined).fragments mode = (world.sourced tools host plan).fragments mode := by
  simp [World.qstrsGenerated, World.genQstr, World.expand, World.qstrsCollected, World.catQstr, World.cat, other]

theorem modulesGenerated_fragments (mode : Mode) (other : mode ≠ .module) :
    (world.modulesGenerated tools host plan predefined).fragments mode =
      (world.qstrsGenerated tools host plan predefined).fragments mode := by
  simp [World.modulesGenerated, World.catGenerate, World.cat, other]

theorem produces_present (good : Produces tools host world plan predefined) : Present plan world := by
  obtain ⟨_, _, _, _, modules, pointers⟩ := good
  have modulesFound := modules.2
  have pointersFound := pointers.2
  rw [modulesGenerated_fragments _ _ _ (by decide)] at pointersFound
  rw [qstrsGenerated_fragments _ _ _ (by decide), sourced_present] at modulesFound pointersFound
  by_cases none : plan.srcFiles = []
  · exact Or.inr ⟨by simpa [none] using modulesFound, by simpa [none] using pointersFound⟩
  · exact Or.inl none

theorem cats_iff (assigned : Assigns tools status) (mode : Mode) :
    Cats tools world mode ↔ status world.runs.length = 0 ∧ (world.fragments mode).isSome :=
  and_congr_left fun _ => assigned.succeeds _

/-- `main` gets through exactly when no checked run fails and no directory is
missing: the two runs in between count for nothing. -/
theorem produces_iff (assigned : Assigns tools status) (fresh : world.runs = []) :
    Produces tools host world plan predefined ↔
      Present plan world ∧ ∀ turn, Checked plan.srcFiles.length turn → status turn = 0 := by
  have start : world.runs.length = 0 := by rw [fresh]; rfl
  have prepared : (world.prepared tools).runs.length = 1 := by simp [World.prepared, start]
  simp only [Produces, Expands, assigned.succeeds, cats_iff assigned, sources_all assigned, sourced_turn, expand_turn,
    qstrsCollected_turn, prepared, qstrsGenerated_turn, modulesGenerated_turn, start, sourced_present, qstrsGenerated_fragments, ne_eq,
    modulesGenerated_fragments, reduceCtorEq, not_false_eq_true, true_or, and_true, false_or]
  constructor
  · intro ⟨version, sources, qstrs, ⟨expands, generates⟩, ⟨modules, modulesFound⟩, pointers, pointersFound⟩
    refine ⟨?_, fun turn checked => ?_⟩
    · by_cases none : plan.srcFiles = []
      · exact Or.inr ⟨modulesFound.resolve_left (absurd none), pointersFound.resolve_left (absurd none)⟩
      · exact Or.inl none
    · obtain ⟨below, notModules, notPointers⟩ := checked
      by_cases first : turn = 0
      · rw [first]; exact version
      by_cases source : turn < 1 + 4 * plan.srcFiles.length
      · have passed := sources (turn - 1) (by omega)
        rwa [show 1 + (turn - 1) = turn by omega] at passed
      have either : turn = 0 + 1 + 4 * plan.srcFiles.length ∨ turn = 0 + 2 + 4 * plan.srcFiles.length ∨
          turn = 0 + 2 + 4 * plan.srcFiles.length + 1 ∨ turn = 0 + 4 + 4 * plan.srcFiles.length ∨
          turn = 0 + 6 + 4 * plan.srcFiles.length := by omega
      rcases either with rfl | rfl | rfl | rfl | rfl
      · exact qstrs
      · exact expands
      · exact generates
      · exact modules
      · exact pointers
  · intro ⟨present, passed⟩
    have found : ∀ mode, mode = .module ∨ mode = .rootPointer →
        ¬ plan.srcFiles = [] ∨ (world.fragments mode).isSome := by
      intro mode either
      refine present.imp_right fun both => ?_
      rcases either with rfl | rfl
      · exact both.1
      · exact both.2
    refine ⟨passed _ ?_, fun turn below => passed _ ?_, passed _ ?_, ⟨passed _ ?_, passed _ ?_⟩,
      ⟨passed _ ?_, found .module (Or.inl rfl)⟩, passed _ ?_, found .rootPointer (Or.inr rfl)⟩
    all_goals (unfold Checked; omega)

end Course

variable {args : Args}

/-- The scan ends, every command line can be split, `qstrdefs.h` and the fragment
directories are there, and no checked run fails. -/
def Passes (host : Host) (args : Args) (world : World) (status : Nat → Nat) : Prop :=
  ∃ found predefined, plan host args = .ok found ∧ host.readText (qstrdefs host found.infPath) = some predefined ∧
    Spelled host (commands host found) ∧ Present found world ∧
    ∀ turn, Checked found.srcFiles.length turn → status turn = 0

theorem main_exec {found : Plan} (planned : plan host args = .ok found) :
    (main tools host args).exec world = (produce tools host found).exec world := by
  rw [main, exec_bind, exec_ofExcept, planned]

theorem main_planned {after : World} (ended : (main tools host args).exec world = (.ok ⟨⟩, after)) :
    ∃ found, plan host args = .ok found := by
  cases planned : plan host args with
  | ok found => exact ⟨found, rfl⟩
  | error error =>
    rw [main, exec_bind, exec_ofExcept, planned] at ended
    injection ended with impossible _
    cases impossible

theorem main_ended {after : World} (ended : (main tools host args).exec world = (.ok ⟨⟩, after)) :
    ∃ found predefined, plan host args = .ok found ∧ host.readText (qstrdefs host found.infPath) = some predefined ∧
      Spelled host (commands host found) ∧ Produces tools host world found predefined ∧
      after = world.produced tools host found predefined := by
  obtain ⟨found, planned⟩ := main_planned ended
  rw [main_exec planned] at ended
  cases read : host.readText (qstrdefs host found.infPath) with
  | none => exact absurd ended (produce_missing read ⟨⟩ after)
  | some predefined =>
    obtain ⟨⟨spelled, good⟩, _, last⟩ := (produce_leads read).returned ended
    exact ⟨found, predefined, planned, read, spelled, good, last⟩

theorem main_returned (assigned : Assigns tools status) (fresh : world.runs = []) {after : World}
    (ended : (main tools host args).exec world = (.ok ⟨⟩, after)) :
    ∃ found predefined, plan host args = .ok found ∧ host.readText (qstrdefs host found.infPath) = some predefined ∧
      Spelled host (commands host found) ∧ Present found world ∧
      (∀ turn, Checked found.srcFiles.length turn → status turn = 0) ∧
      after = world.produced tools host found predefined := by
  obtain ⟨found, predefined, planned, read, spelled, good, last⟩ := main_ended ended
  obtain ⟨present, passed⟩ := (produces_iff found predefined assigned fresh).mp good
  exact ⟨found, predefined, planned, read, spelled, present, passed, last⟩

theorem main_returns (assigned : Assigns tools status) (fresh : world.runs = []) {found : Plan} {predefined : Text}
    (planned : plan host args = .ok found) (read : host.readText (qstrdefs host found.infPath) = some predefined)
    (spelled : Spelled host (commands host found)) (present : Present found world)
    (passed : ∀ turn, Checked found.srcFiles.length turn → status turn = 0) :
    (main tools host args).exec world = (.ok ⟨⟩, world.produced tools host found predefined) := by
  rw [main_exec planned]
  exact (produce_leads read).exec_eq ⟨spelled, (produces_iff found predefined assigned fresh).mpr ⟨present, passed⟩⟩

theorem produced_runs (assigned : Assigns tools status) (fresh : world.runs = []) (found : Plan) (predefined : Text) :
    (world.produced tools host found predefined).runs.map Prod.snd =
      (List.range (8 + 4 * found.srcFiles.length)).map status := by
  have start : Recorded status world := by simp [Recorded, fresh]
  have recorded := @produced_recorded tools host _ _ found predefined assigned start
  rw [Recorded, produced_turn, fresh] at recorded
  simpa using recorded

end SblPayload.Proofs.GenhdrStatus
