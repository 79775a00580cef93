import SblPayload.Genhdr.Main

/-! `BuildMicroPython.py`: the headers are generated by a process of its own, and
the payload is built by another one after it. -/

namespace SblPayload.BuildMicroPython
open Library Text Script Genhdr

/-- How a build ends early: a program cannot be started, an environment variable is
not set, a directory cannot be made, the tree cannot be copied, the build tools of the
loader cannot be loaded, or refuse the toolchain. -/
inductive BuildError where
  | fileNotFound
  | environment
  | directory
  | copy
  | utility
  | toolchain
deriving DecidableEq

inductive Process where
  | git (cmd : List Text)
  | genhdr (cmd : List Text)
  | buildLoader (cmd : List Text)
deriving DecidableEq

def Process.cmd : Process → List Text
  | .git cmd => cmd
  | .genhdr cmd => cmd
  | .buildLoader cmd => cmd

/-- `starts` holds of the programs that can be started, `runs` of those that also end
well when they are asked for their version, `makedirs` of the directories that are
there or can be made. -/
structure BuildHost where
  files : Host
  executable : Text
  mpyDir : Text
  environ : Text → Option Text
  makedirs : Text → Bool
  samefile : Text → Text → Bool
  copytree : Text → Text → Bool
  loads : Text → Bool
  verifyToolchains : Text → Bool
  exitStatus : Process → Nat
  starts : Text → Bool
  runs : Text → Bool

structure BuildArgs where
  sblpath : Text
  toolchain : Text
  arch : Text
  release : Bool

structure State where
  world : World
  started : List (Process × Nat)

abbrev Build := Script State BuildError

variable (tools : Tools) (host : BuildHost)

/-- `subprocess.run` raises when there is no such program. -/
def canStart (process : Process) : Bool := process.cmd.head?.any host.starts

def run (process : Process) : Build PUnit := do
  ensure (canStart host process) .fileNotFound
  modify fun state => { state with started := state.started ++ [(process, host.exitStatus process)] }

/-- The child knows how to start the preprocessor from its arguments. -/
def childMain (files : Host) (pp : Text) : Host := { files with PP_CMD := PP_CMD files.os.name pp }

/-- `genhdr.py` as a process: the check of its external tools, and `main`. An
exception that nothing catches ends it with status one. -/
def genhdrProcess (files : Host) (pp : Text) (args : Args) (world : World) : Nat × World :=
  if host.runs "python".toList && host.runs pp then
    match (main tools (childMain files pp) args).exec { world with runs := [] } with
    | (.ok _, after) => (0, after)
    | (.error _, after) => (1, after)
  else (1, world)

def runGenhdr (cmd : List Text) (files : Host) (pp : Text) (args : Args) : Build PUnit := do
  ensure (canStart host (.genhdr cmd)) .fileNotFound
  modify fun state =>
    let (status, world) := genhdrProcess tools host files pp args state.world
    { world, started := state.started ++ [(.genhdr cmd, status)] }

def joinAll (first : Text) (rest : List Text) : Text := rest.foldl host.files.os.join first

def ppCmd (arch : Text) : Option Text :=
  match host.files.os.name with
  | .posix => some "gcc".toList
  | .nt => do
    let chain ← host.environ "TOOL_CHAIN".toList
    let folder ← host.environ (chain ++ "_PREFIX".toList)
    return joinAll host folder ["bin".toList, "host".toList ++ arch, arch, "cl.exe".toList]

def mpyPmodDir (sblDir : Text) : Text := host.files.os.join sblDir "PayloadModPkg".toList

def genDir (sblDir : Text) : Text :=
  joinAll host (mpyPmodDir host sblDir) ["MicroPython".toList, "MicroPython".toList, "genhdr".toList]

def infFile (sblDir : Text) : Text :=
  joinAll host (mpyPmodDir host sblDir) ["MicroPython".toList, "MicroPython.inf".toList]

/-- The environment variables `cmd_build` sets are those of the process too. -/
def childHost (sblDir : Text) : Host :=
  { host.files with PACKAGES_PATH := some sblDir, WORKSPACE := some host.mpyDir }

def genhdrCmd (arch sblDir pp : Text) : List Text :=
  let toolDir := joinAll host (mpyPmodDir host sblDir) ["MicroPython".toList, "Tools".toList]
  let script := host.files.os.join toolDir "genhdr.py".toList
  [host.executable, script, "-a".toList, arch, "-p".toList, pp, infFile host sblDir]

def prepMpy (arch sblDir : Text) : Build PUnit := do
  let pmod := mpyPmodDir host sblDir
  ensure (host.makedirs pmod) .directory
  ensure (host.samefile host.mpyDir pmod || host.copytree host.mpyDir pmod) .copy
  ensure (host.makedirs (genDir host sblDir)) .directory
  match ppCmd host arch with
  | none => throw .environment
  | some pp =>
    runGenhdr tools host (genhdrCmd host arch sblDir pp) (childHost host sblDir) pp ⟨infFile host sblDir, arch⟩

def sblTools (sblDir : Text) : Text := joinAll host sblDir ["BootloaderCorePkg".toList, "Tools".toList]

def repository : Text := "https://github.com/slimbootloader/slimbootloader.git".toList

def usesGiven (args : BuildArgs) : Bool :=
  args.sblpath ≠ [] && host.files.pathExists (host.files.abspath args.sblpath)

def sblDir (args : BuildArgs) : Text :=
  if usesGiven host args then host.files.abspath args.sblpath
  else host.files.os.join host.mpyDir "slimbootloader".toList

def buildDsc (args : BuildArgs) : List Text :=
  let dsc := host.files.os.join host.mpyDir "PayloadModPkg.dsc".toList
  let cmd := [host.executable, host.files.os.join (sblDir host args) "BuildLoader.py".toList, "build_dsc".toList,
    "-p".toList, dsc, "-d".toList, "MICRO_PYTHON".toList, "-a".toList, lower args.arch]
  if args.release then cmd ++ ["-r".toList] else cmd

def fetch (args : BuildArgs) : Build PUnit :=
  if usesGiven host args || host.files.pathExists (sblTools host (sblDir host args)) then pure ⟨⟩
  else run host (.git ["git".toList, "clone".toList, repository, sblDir host args])

def cmdBuild (args : BuildArgs) : Build PUnit := do
  run host (.git ["git".toList, "submodule".toList, "update".toList, "--init".toList])
  fetch host args
  ensure (host.loads (host.files.os.join (sblTools host (sblDir host args)) "BuildUtility.py".toList)) .utility
  ensure (host.verifyToolchains args.toolchain) .toolchain
  prepMpy tools host (args.arch.map Char.toUpper) (sblDir host args)
  run host (.buildLoader (buildDsc host args))

end SblPayload.BuildMicroPython
