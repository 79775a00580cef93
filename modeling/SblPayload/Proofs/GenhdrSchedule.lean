import SblPayload.Genhdr.Main
import SblPayload.Library.ScriptTrace

/-! Which programs a run of `main` of `genhdr.py` starts, and in which order. The plan
fixes them; an exception only cuts the list short, at the failed program if it comes
from one. -/

namespace SblPayload.Proofs.GenhdrSchedule
open Library Text Script Recorder Genhdr

/-- A program and what it is for, without the texts it reads. -/
inductive Task where
  | makeversionhdr
  | preprocessor (options : Text) (inFile : File)
  | split (mode : Mode) (src : Text)
  | cat (mode : Mode)
  | makeqstrdata
  | makemoduledefs
  | makeRootPointers
deriving DecidableEq

def task : Invocation → Task
  | .makeversionhdr => .makeversionhdr
  | .preprocessor options inFile _ => .preprocessor options inFile
  | .split mode src _ => .split mode src
  | .cat mode _ => .cat mode
  | .makeqstrdata _ => .makeqstrdata
  | .makemoduledefs _ => .makemoduledefs
  | .makeRootPointers _ => .makeRootPointers

/-- The programs started with `check_call`. -/
def Checked : Invocation → Prop
  | .makemoduledefs _ => False
  | .makeRootPointers _ => False
  | _ => True

def recorder : Recorder World PyError (Invocation × Nat) Task where
  log := World.runs
  step run := task run.1
  Passed run := Checked run.1 → run.2 = 0
  Failure error := error = .calledProcess

variable (host : Host)

def options (plan : Plan) : Text :=
  let flag := match host.os.name with
    | .posix => " -I".toList
    | .nt => " /I".toList
  plan.ccOptions ++ flag ++ flag.intercalate plan.incPaths

/-- The programs for one source. -/
def sourceTasks (plan : Plan) (src : Text) : List Task :=
  [.preprocessor (options host plan) (.source src), .split .qstr src, .split .module src, .split .rootPointer src]

def schedule (plan : Plan) : List Task :=
  .makeversionhdr :: (plan.srcFiles.flatMap (sourceTasks host plan) ++
    [.cat .qstr, .preprocessor (options host plan) (.genhdr collectedQstrFile), .makeqstrdata, .cat .module,
      .makemoduledefs, .cat .rootPointer, .makeRootPointers])

section Steps
variable {host} {tools : Tools}

abbrev Makes {α : Type} (tasks : List Task) (script : Run α) : Prop := recorder.Follows tasks script

theorem checkCall_makes {invocation : Invocation} (checked : Checked invocation) :
    Makes [task invocation] (checkCall tools invocation) := by
  intro world
  rw [exec_checkCall]
  split
  next succeeded =>
    refine ⟨_, World.after_runs world tools invocation, rfl, ?_⟩
    intro run member
    rw [List.mem_singleton.mp member]
    exact fun _ => succeeded
  next fails =>
    refine ⟨_, World.after_runs world tools invocation, ?_⟩
    exact @Stopped.failed _ _ _ _ recorder [task invocation] _ [] _ rfl List.prefix_rfl (List.forall_mem_nil _)
      fun passed => fails (passed checked)

theorem subprocessRun_makes {invocation : Invocation} (unchecked : ¬ Checked invocation) :
    Makes [task invocation] (subprocessRun tools invocation) := by
  intro world
  refine ⟨_, World.after_runs world tools invocation, rfl, ?_⟩
  intro run member
  rw [List.mem_singleton.mp member]
  exact fun checked => absurd checked unchecked

theorem readFile_makes (file : File) : Makes [] (readFile file) := by
  apply Follows.get_bind
  intro world
  split
  · exact Outcome.quiet rfl
  · exact Outcome.raise rfl nofun

theorem osRemove_makes (file : File) : Makes [] (osRemove file) := by
  apply Follows.get_bind
  intro world
  split
  · exact Outcome.quiet (World.remove_runs world file)
  · exact Outcome.raise rfl nofun

theorem removeListed_makes (mode : Mode) : Makes [] (removeListed mode) := by
  apply Follows.get_bind
  intro world
  split
  · exact Outcome.quiet (World.place_runs world mode Directory.empty)
  · exact Outcome.raise rfl nofun

theorem writeFile_makes (file : File) (text : Text) : Makes [] (writeFile file text) :=
  Follows.modify fun world => World.write_runs world file text

/-- A command line that cannot be split starts nothing. -/
theorem splitCommand_makes (command : Command) : Makes [] (splitCommand host command) := by
  intro world
  rw [splitCommand, exec_ensure]
  cases (argv host.os host.PP_CMD command).isSome with
  | true => exact Outcome.quiet rfl
  | false => exact Outcome.raise rfl nofun

theorem preprocess_makes (inPath outPath : Text) (inFile outFile : File) (plan : Plan) :
    Makes [.preprocessor (options host plan) inFile]
      (preprocess tools host inPath outPath inFile outFile plan.incPaths plan.ccOptions) := by
  apply (splitCommand_makes _).after
  intro _
  apply Follows.get_bind
  intro world
  refine (Follows.before ?_ fun output => writeFile_makes outFile output) world
  exact @checkCall_makes tools (.preprocessor (options host plan) inFile (world.files inFile)) trivial

theorem splitFragment_makes (command : Command) (mode : Mode) (src : Text) :
    Makes [.split mode src] (splitFragment tools host command mode src) := by
  apply (splitCommand_makes command).after
  intro _
  apply Follows.get_bind
  intro world
  refine (Follows.before ?_ fun fragment => Follows.modify fun other => ?_) world
  · exact @checkCall_makes tools (.split mode src (world.files (.preprocessed src))) trivial
  · exact World.place_runs other mode ((other.present mode).insert (tools.fragmentName src) fragment)

theorem collectSource_makes (plan : Plan) (src : Text) :
    Makes (sourceTasks host plan src) (collectSource tools host plan.infPath plan.incPaths plan.ccOptions src) := by
  apply (preprocess_makes _ _ (.source src) (.preprocessed src) plan).bind
  intro _
  apply (splitFragment_makes _ .qstr src).bind
  intro _
  apply (splitFragment_makes _ .module src).bind
  intro _
  apply (splitFragment_makes _ .rootPointer src).before
  intro _
  exact osRemove_makes _

theorem catFragments_makes (command : Command) (mode : Mode) (dst : Text) :
    Makes [.cat mode] (catFragments tools host command mode dst) := by
  apply (splitCommand_makes command).after
  intro _
  apply Follows.get_bind
  intro world
  refine (Follows.before ?_ fun collected => ?_) world
  · exact @checkCall_makes tools (.cat mode (world.present mode)) trivial
  · exact (writeFile_makes _ collected).after fun _ => writeFile_makes _ _

theorem catAndClear_makes (command : Command) (mode : Mode) (dst : Text) :
    Makes [.cat mode] (catAndClear tools host command mode dst) := by
  apply (catFragments_makes command mode dst).before
  intro _
  apply (osRemove_makes _).after
  intro _
  exact removeListed_makes mode

theorem generate_makes {program : Option Text → Invocation} {made : Task} (unchecked : ∀ input, ¬ Checked (program input))
    (same : ∀ input, task (program input) = made) (command : Command) (file collected : Text) :
    Makes [made] (generate tools host command program file collected) := by
  apply (splitCommand_makes command).after
  intro _
  apply Follows.get_bind
  intro world
  refine (Follows.before ?_ fun result => ?_) world
  · rw [← same (world.files (.genhdr collected))]
    exact subprocessRun_makes (unchecked _)
  · exact (writeFile_makes _ _).after fun _ => osRemove_makes _

theorem openText_fails (path : Text) (error : PyError) (raised : host.openText path = .error error) :
    ¬ recorder.Failure error := by
  unfold Host.openText at raised
  split at raised
  · cases raised
  · cases raised
    nofun

theorem catQstr_makes (infPath dst : Text) : Makes [.cat .qstr] (catQstr tools host infPath dst) := by
  apply (catFragments_makes _ .qstr _).before
  intro _
  apply (writeFile_makes _ _).after
  intro _
  apply (Follows.ofExcept (openText_fails _)).after
  intro predefined
  apply (readFile_makes _).after
  intro collected
  apply (writeFile_makes _ _).after
  intro _
  apply (osRemove_makes _).after
  intro _
  apply (osRemove_makes _).after
  intro _
  exact removeListed_makes .qstr

theorem genQstr_makes (file dst : Text) (plan : Plan) :
    Makes [.preprocessor (options host plan) (.genhdr dst), .makeqstrdata]
      (genQstr tools host plan.infPath file dst plan.incPaths plan.ccOptions) := by
  apply (readFile_makes _).after
  intro content
  apply (writeFile_makes _ _).after
  intro _
  apply (preprocess_makes _ _ (.genhdr dst) _ plan).bind
  intro _
  apply (readFile_makes _).after
  intro content
  apply (writeFile_makes _ _).after
  intro _
  apply (writeFile_makes _ _).after
  intro _
  apply (splitCommand_makes _).after
  intro _
  apply Follows.get_bind
  intro world
  refine (Follows.before ?_ fun output => ?_) world
  · exact @checkCall_makes tools (.makeqstrdata (world.files (.genhdr (dst ++ ".i".toList)))) trivial
  · apply (writeFile_makes _ output).after
    intro _
    exact (osRemove_makes _).after fun _ => osRemove_makes _

theorem prepareQstrDir_makes : Makes [] prepareQstrDir := by
  apply Follows.get_bind
  intro world
  split
  · exact Outcome.quiet (World.place_runs world .qstr Directory.empty)
  · exact Outcome.quiet (World.place_runs world .qstr Directory.empty)

theorem genVersion_makes (file : Text) : Makes [.makeversionhdr] (genVersion tools file) :=
  (@checkCall_makes tools .makeversionhdr trivial).before fun output => writeFile_makes _ output

theorem genModule_makes (infPath file collected : Text) :
    Makes [.makemoduledefs] (genModule tools host infPath file collected) :=
  @generate_makes host tools .makemoduledefs .makemoduledefs (fun _ checked => checked) (fun _ => rfl) _ file collected

theorem genRootPointers_makes (infPath file collected : Text) :
    Makes [.makeRootPointers] (genRootPointers tools host infPath file collected) :=
  @generate_makes host tools .makeRootPointers .makeRootPointers (fun _ checked => checked) (fun _ => rfl) _ file collected

theorem produce_makes (plan : Plan) : Makes (schedule host plan) (produce tools host plan) := by
  apply (genVersion_makes _).bind
  intro _
  apply (writeFile_makes _ _).after
  intro _
  apply prepareQstrDir_makes.after
  intro _
  apply (Follows.forM (collectSource_makes plan) plan.srcFiles).bind
  intro _
  apply (catQstr_makes _ _).bind
  intro _
  apply (genQstr_makes _ _ plan).bind
  intro _
  apply (catAndClear_makes _ .module _).bind
  intro _
  apply (genModule_makes _ _ _).bind
  intro _
  apply (catAndClear_makes _ .rootPointer _).bind
  intro _
  exact genRootPointers_makes _ _ _

end Steps

/-- Every run of `main` whose scan succeeds starts the programs of its plan in their
order. A run that returns has started them all, none of those it checks failing; a
run that raises has started the first of them, and nothing after one that failed. -/
theorem main_follows_schedule (tools : Tools) (args : Args) (world : World) :
    match plan host args with
    | .ok found => recorder.Outcome (schedule host found) world ((main tools host args).exec world)
    | .error error => (main tools host args).exec world = (.error error, world) := by
  rw [main, exec_bind, exec_ofExcept]
  cases plan host args with
  | ok found => exact produce_makes found world
  | error error => rfl

end SblPayload.Proofs.GenhdrSchedule
