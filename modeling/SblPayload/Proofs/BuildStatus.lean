import SblPayload.BuildMicroPython
import SblPayload.Proofs.GenhdrStatus

/-! A failing run is noticed if its exit status is looked at. Two generators and
the whole of `genhdr.py` are started without looking. A run that is never started, for
want of the program or of its arguments, is noticed always. -/

namespace SblPayload.Proofs.BuildStatus
open Library Text Script Genhdr BuildMicroPython GenhdrStatus

variable {tools : Tools} {status : Nat → Nat}

def HeadersChecked (tools : Tools) (host : Host) (args : Args) (world : World) : Prop :=
  ∀ after, (main tools host args).exec world = (.ok ⟨⟩, after) → ∀ run ∈ after.runs, run.2 = 0

/-- `build_dsc` is started only if the process that generates the headers ended
successfully. -/
def BuildChecked (tools : Tools) (host : BuildHost) (args : BuildArgs) (world : World) : Prop :=
  let started := ((cmdBuild tools host args).exec ⟨world, []⟩).2.started
  ∀ cmd code, (.buildLoader cmd, code) ∈ started → ∃ gen, (.genhdr gen, 0) ∈ started

def GeneratorsSucceed (host : Host) (args : Args) (world : World) (status : Nat → Nat) : Prop :=
  ∀ found predefined, plan host args = .ok found → host.readText (qstrdefs host found.infPath) = some predefined →
    Spelled host (commands host found) → Present found world →
    (∀ turn, Checked found.srcFiles.length turn → status turn = 0) →
    status (5 + 4 * found.srcFiles.length) = 0 ∧ status (7 + 4 * found.srcFiles.length) = 0

theorem headers_checked_iff {host : Host} {args : Args} {world : World} (assigned : Assigns tools status)
    (fresh : world.runs = []) :
    HeadersChecked tools host args world ↔ GeneratorsSucceed host args world status := by
  constructor
  · intro checked found predefined planned read spelled present passed
    have all := checked _ (main_returns assigned fresh planned read spelled present passed)
    have codes := @produced_runs _ host _ _ assigned fresh found predefined
    have zero : ∀ turn < 8 + 4 * found.srcFiles.length, status turn = 0 := by
      intro turn below
      have member : status turn ∈ (world.produced tools host found predefined).runs.map Prod.snd := by
        rw [codes]
        exact List.mem_map_of_mem (List.mem_range.mpr below)
      obtain ⟨run, made, same⟩ := List.mem_map.mp member
      rw [← same]
      exact all run made
    exact ⟨zero _ (by omega), zero _ (by omega)⟩
  · intro succeed after ended run made
    obtain ⟨found, predefined, planned, read, spelled, present, passed, rfl⟩ := main_returned assigned fresh ended
    obtain ⟨modules, pointers⟩ := succeed found predefined planned read spelled present passed
    have member := @List.mem_map_of_mem _ _ _ _ Prod.snd made
    rw [produced_runs assigned fresh] at member
    obtain ⟨turn, below, same⟩ := List.mem_map.mp member
    rw [← same]
    by_cases atModules : turn = 5 + 4 * found.srcFiles.length
    · rw [atModules]; exact modules
    by_cases atPointers : turn = 7 + 4 * found.srcFiles.length
    · rw [atPointers]; exact pointers
    exact passed turn ⟨List.mem_range.mp below, atModules, atPointers⟩

section Build

variable {host : BuildHost} {args : BuildArgs} {pp : Text} {state : State}

/-- What a build needs to come to the process that generates the headers. -/
structure Starts (host : BuildHost) (args : BuildArgs) (pp : Text) : Prop where
  git : host.starts "git".toList = true
  loads : host.loads (host.files.os.join (sblTools host (sblDir host args)) "BuildUtility.py".toList) = true
  verified : host.verifyToolchains args.toolchain = true
  pmod : host.makedirs (mpyPmodDir host (sblDir host args)) = true
  copied : (host.samefile host.mpyDir (mpyPmodDir host (sblDir host args)) ||
    host.copytree host.mpyDir (mpyPmodDir host (sblDir host args))) = true
  made : host.makedirs (genDir host (sblDir host args)) = true
  preprocessor : ppCmd host (args.arch.map Char.toUpper) = some pp
  python : host.starts host.executable = true

/-- The host of `main` in the process that `prep_mpy` starts. -/
def headersHost (host : BuildHost) (args : BuildArgs) (pp : Text) : Host :=
  childMain (childHost host (sblDir host args)) pp

def headersArgs (host : BuildHost) (args : BuildArgs) : Args :=
  ⟨infFile host (sblDir host args), args.arch.map Char.toUpper⟩

/-- The status that process ends with, and what it leaves. -/
def generated (tools : Tools) (host : BuildHost) (args : BuildArgs) (pp : Text) (world : World) : Nat × World :=
  genhdrProcess tools host (childHost host (sblDir host args)) pp (headersArgs host args) world

def OnlyGit (state : State) : Prop := ∀ entry ∈ state.started, ∃ cmd, entry.1 = .git cmd

def gitRun (host : BuildHost) (state : State) (cmd : List Text) : State :=
  { state with started := state.started ++ [(.git cmd, host.exitStatus (.git cmd))] }

theorem onlyGit_run {cmd : List Text} (only : OnlyGit state) : OnlyGit (gitRun host state cmd) := by
  intro entry member
  rcases List.mem_append.mp member with before | last
  · exact only entry before
  · exact ⟨cmd, by rw [List.mem_singleton.mp last]⟩

theorem run_exec {process : Process} (starts : canStart host process = true) :
    (run host process).exec state =
      (.ok ⟨⟩, { state with started := state.started ++ [(process, host.exitStatus process)] }) := by
  rw [run, starts]
  rfl

theorem run_missing {process : Process} (missing : canStart host process = false) :
    (run host process).exec state = (.error .fileNotFound, state) := by
  rw [run, missing]
  rfl

def fetched (host : BuildHost) (args : BuildArgs) (state : State) : State := ((fetch host args).exec state).2

/-- Where git can be started, the second call of it is made or not needed. -/
theorem fetch_exec (git : host.starts "git".toList = true) :
    (fetch host args).exec state = (.ok ⟨⟩, fetched host args state) ∧ (fetched host args state).world = state.world ∧
      (OnlyGit state → OnlyGit (fetched host args state)) := by
  unfold fetched fetch
  split
  · exact ⟨rfl, rfl, id⟩
  · have second := @run_exec host state (.git ["git".toList, "clone".toList, repository, sblDir host args]) git
    rw [second]
    exact ⟨rfl, rfl, onlyGit_run⟩

def submodule : List Text := ["git".toList, "submodule".toList, "update".toList, "--init".toList]

def fetchedState (host : BuildHost) (args : BuildArgs) (world : World) : State :=
  fetched host args (gitRun host ⟨world, []⟩ submodule)

theorem fetchedState_only {world : World} (git : host.starts "git".toList = true) :
    (fetchedState host args world).world = world ∧ OnlyGit (fetchedState host args world) := by
  obtain ⟨_, same, only⟩ := @fetch_exec host args (gitRun host ⟨world, []⟩ submodule) git
  exact ⟨same, only (onlyGit_run (List.forall_mem_nil _))⟩

theorem cmdBuild_exec (git : host.starts "git".toList = true) (world : World) :
    (cmdBuild tools host args).exec ⟨world, []⟩ =
      (do
        ensure (host.loads (host.files.os.join (sblTools host (sblDir host args)) "BuildUtility.py".toList)) .utility
        ensure (host.verifyToolchains args.toolchain) .toolchain
        prepMpy tools host (args.arch.map Char.toUpper) (sblDir host args)
        run host (.buildLoader (buildDsc host args)) : Build PUnit).exec (fetchedState host args world) := by
  have first : (run host (.git submodule)).exec ⟨world, []⟩ = (.ok ⟨⟩, gitRun host ⟨world, []⟩ submodule) :=
    run_exec git
  have second := (@fetch_exec host args (gitRun host ⟨world, []⟩ submodule) git).1
  unfold cmdBuild
  rw [exec_bind, ← submodule, first]
  dsimp only
  rw [exec_bind, second]
  rfl

theorem build_starts (world : World) (starts : Starts host args pp) :
    ((cmdBuild tools host args).exec ⟨world, []⟩).2.started = (fetchedState host args world).started ++
      [(.genhdr (genhdrCmd host (args.arch.map Char.toUpper) (sblDir host args) pp), (generated tools host args pp world).1)] ++
      [(.buildLoader (buildDsc host args), host.exitStatus (.buildLoader (buildDsc host args)))] := by
  obtain ⟨git, loads, verified, pmod, copied, made, found, python⟩ := starts
  have same := (@fetchedState_only host args world git).1
  have process : generated tools host args pp world =
      generated tools host args pp (fetchedState host args world).world := by rw [same]
  have genhdr (cmd : List Text) : canStart host (.genhdr (host.executable :: cmd)) = true := python
  have loader : canStart host (.buildLoader (buildDsc host args)) = true := by
    unfold buildDsc
    dsimp only
    split <;> exact python
  rw [cmdBuild_exec git, process]
  simp only [exec_bind, exec_ensure, loads, verified, prepMpy, pmod, copied, made, found, runGenhdr, genhdrCmd, genhdr,
    run, loader, ↓reduceIte]
  rfl

theorem build_stops (world : World) (stops : ∀ pp, ¬ Starts host args pp) :
    OnlyGit ((cmdBuild tools host args).exec ⟨world, []⟩).2 := by
  by_cases git : host.starts "git".toList = true
  · have only := (@fetchedState_only host args world git).2
    rw [cmdBuild_exec git]
    simp only [prepMpy, bind_assoc]
    refine ensure_keeps only fun loads => ensure_keeps only fun verified => ensure_keeps only fun pmod => ?_
    refine ensure_keeps only fun copied => ensure_keeps only fun made => ?_
    cases found : ppCmd host (args.arch.map Char.toUpper) with
    | none => exact only
    | some pp =>
      simp only [runGenhdr, bind_assoc]
      exact ensure_keeps only fun python => absurd ⟨git, loads, verified, pmod, copied, made, found, python⟩ (stops pp)
  · have first := @run_missing host ⟨world, []⟩ (.git submodule) (Bool.eq_false_iff.mpr git)
    have stopped : (cmdBuild tools host args).exec ⟨world, []⟩ = (.error .fileNotFound, ⟨world, []⟩) := by
      unfold cmdBuild
      rw [exec_bind, ← submodule, first]
    rw [stopped]
    exact List.forall_mem_nil _

theorem build_checked_iff (world : World) :
    BuildChecked tools host args world ↔ ∀ pp, Starts host args pp → (generated tools host args pp world).1 = 0 := by
  constructor
  · intro checked pp starts
    have before := (@fetchedState_only host args world starts.git).2
    unfold BuildChecked at checked
    dsimp only at checked
    rw [build_starts world starts] at checked
    obtain ⟨gen, member⟩ := checked (buildDsc host args) _ (List.mem_append_right _ (List.mem_singleton.mpr rfl))
    rcases List.mem_append.mp member with earlier | impossible
    · rcases List.mem_append.mp earlier with git | here
      · obtain ⟨cmd, same⟩ := before _ git
        cases same
      · have pair := List.mem_singleton.mp here
        injection pair with _ same
        exact same.symm
    · have pair := List.mem_singleton.mp impossible
      injection pair with same _
      cases same
  · intro succeed cmd code member
    by_cases starts : ∃ pp, Starts host args pp
    · obtain ⟨pp, starts⟩ := starts
      refine ⟨genhdrCmd host (args.arch.map Char.toUpper) (sblDir host args) pp, ?_⟩
      rw [build_starts world starts, succeed pp starts]
      exact List.mem_append_left _ (List.mem_append_right _ (List.mem_singleton.mpr rfl))
    · obtain ⟨git, same⟩ := build_stops world (not_exists.mp starts) _ member
      cases same

def HeadersSucceed (host : BuildHost) (args : BuildArgs) (world : World) (status : Nat → Nat) : Prop :=
  ∀ pp, Starts host args pp → (host.runs "python".toList && host.runs pp) = true ∧
    Passes (headersHost host args pp) (headersArgs host args) world status

theorem generated_zero_iff (assigned : Assigns tools status) (world : World) :
    (generated tools host args pp world).1 = 0 ↔ (host.runs "python".toList && host.runs pp) = true ∧
      Passes (headersHost host args pp) (headersArgs host args) world status := by
  unfold generated genhdrProcess
  by_cases ready : (host.runs "python".toList && host.runs pp) = true
  · rw [if_pos ready]
    constructor
    · intro zero
      refine ⟨ready, ?_⟩
      cases ended : (main tools (childMain (childHost host (sblDir host args)) pp) (headersArgs host args)).exec
          { world with runs := [] } with
      | mk result after =>
        rw [ended] at zero
        cases result with
        | error error => cases zero
        | ok _ =>
          obtain ⟨found, predefined, planned, read, spelled, present, passed, _⟩ := main_returned assigned rfl ended
          exact ⟨found, predefined, planned, read, spelled, present, passed⟩
    · intro ⟨_, found, predefined, planned, read, spelled, present, passed⟩
      have returns := @main_returns tools (headersHost host args pp) { world with runs := [] } status
        (headersArgs host args) assigned rfl found predefined planned read spelled present passed
      rw [headersHost] at returns
      rw [returns]
  · rw [if_neg ready]
    exact Iff.intro (fun impossible => absurd impossible Nat.one_ne_zero) (fun both => absurd both.1 ready)

end Build

def ending (status : Nat → Nat) (output : Nat → Invocation → Text) (fragmentName digest : Text → Text) : Tools :=
  ⟨fun turn invocation => ⟨status turn, output turn invocation⟩, fragmentName, digest⟩

/-- No failure is swallowed exactly when there is none to swallow: neither in the
two unchecked generators, nor in the process that generates the headers. -/
theorem failures_noticed_iff (status : Nat → Nat) (output : Nat → Invocation → Text) (fragmentName digest : Text → Text)
    (files : File → Option Text) (fragments : Mode → Option (Directory Text Char)) (host : Host) (args : Args)
    (buildHost : BuildHost) (buildArgs : BuildArgs) :
    (HeadersChecked (ending status output fragmentName digest) host args ⟨files, fragments, []⟩ ∧
      BuildChecked (ending status output fragmentName digest) buildHost buildArgs ⟨files, fragments, []⟩) ↔
    (GeneratorsSucceed host args ⟨files, fragments, []⟩ status ∧
      HeadersSucceed buildHost buildArgs ⟨files, fragments, []⟩ status) := by
  have assigned : Assigns (ending status output fragmentName digest) status := fun _ _ => rfl
  refine and_congr (headers_checked_iff assigned rfl) ((build_checked_iff _).trans ?_)
  exact forall_congr' fun pp => imp_congr_right fun _ => generated_zero_iff assigned _

def oneSource : Host where
  os := Posix.os
  PACKAGES_PATH := some "/w".toList
  WORKSPACE := none
  abspath := id
  pathExists := fun _ => true
  readText := fun path => some (if path = "/w/M.inf".toList then "[Sources]\na.c\n".toList else [])

def oneSourcePlan : Plan := ⟨"/w".toList, ["/w/a.c".toList], ["/w".toList], "-DNO_QSTR".toList⟩

def readyBuild : BuildHost where
  files := oneSource
  executable := "python3".toList
  mpyDir := "/p".toList
  environ := fun _ => none
  samefile := fun _ _ => true
  copytree := fun _ _ => true
  loads := fun _ => true
  verifyToolchains := fun _ => true
  exitStatus := fun _ => 0
  makedirs := fun _ => true
  starts := fun _ => true
  runs := fun _ => true

def failing (turn : Nat) : Tools := ending (fun other => if other = turn then 1 else 0) (fun _ _ => []) id id

/-- Of the runs, counted from 0, run 9 is `makemoduledefs.py` and run 0 the version
generator. -/
theorem failures_swallowed :
    ¬ HeadersChecked (failing 9) oneSource ⟨"/w/M.inf".toList, "X64".toList⟩ ⟨fun _ => none, fun _ => none, []⟩ ∧
      ¬ BuildChecked (failing 0) readyBuild ⟨[], [], "x64".toList, false⟩ ⟨fun _ => none, fun _ => none, []⟩ := by
  constructor
  · intro checked
    have succeed := (headers_checked_iff (fun _ _ => rfl) rfl).mp checked oneSourcePlan [] (by decide) (by decide)
      (by decide +kernel) (Or.inl (by decide)) (fun turn ⟨_, other, _⟩ => if_neg other)
    exact absurd succeed.1 (by decide)
  · intro checked
    have zero := (build_checked_iff _).mp checked "gcc".toList
      ⟨rfl, rfl, rfl, rfl, rfl, rfl, rfl, rfl⟩
    exact absurd zero (by decide)

end SblPayload.Proofs.BuildStatus
