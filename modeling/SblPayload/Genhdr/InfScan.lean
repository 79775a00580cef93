import SblPayload.Library.PythonPath

/-! The loop of `main` that reads the INF file, line by line, into the lists the
rest of the script works on. -/

namespace SblPayload.Genhdr
open Library Text

/-- The exceptions that end a run: no EDK2 build environment, a failed unpacking,
a child process with a non-zero status, a missing file. -/
inductive PyError where
  | environment
  | value
  | calledProcess
  | fileNotFound
deriving DecidableEq

/-- What the scan reads besides the file: the host, `args.arch`, the package
search path, the directory of the INF file, and which paths exist. -/
structure Setup where
  os : Os
  arch : Text
  pkgPaths : List Text
  infPath : Text
  pathExists : Text → Bool

structure Scan where
  inDefSection : Bool := false
  inBldSection : Bool := false
  inSrcSection : Bool := false
  inPkgSection : Bool := false
  macros : List (Text × Text) := []
  pkgFiles : List Text := []
  srcFiles : List Text := []
  incPaths : List Text
  ccOptions : Text := "-DNO_QSTR".toList
deriving DecidableEq

/-- Assignment to a key of a dictionary: an old key keeps its place. -/
def setItem (name value : Text) : List (Text × Text) → List (Text × Text)
  | [] => [(name, value)]
  | (other, old) :: rest => if other = name then (name, value) :: rest else (other, old) :: setItem name value rest

def replaceMacro (s : Text) (m : List (Text × Text)) : Text :=
  m.foldl (fun s (name, value) => replace s ("$(".toList ++ name ++ ")".toList) value) s

variable (setup : Setup)

def enterSection (scan : Scan) (line : Text) : Scan :=
  { scan with
    inDefSection := startswith line "[Defines".toList
    inSrcSection := startswith line "[Sources".toList
    inBldSection := startswith line "[BuildOptions".toList
    inPkgSection := startswith line "[Packages".toList }

def defineMacro (macros : List (Text × Text)) (line : Text) : Except PyError (List (Text × Text)) :=
  if startswith line "DEFINE ".toList then
    match splitOnce ['='] (line.drop 6) with
    | some (name, value) => .ok (setItem (strip name) (strip value) macros)
    | none => .error .value
  else .ok macros

def sourceEntry (macros : List (Text × Text)) (line : Text) : Text :=
  replaceMacro (strip (before '|' line)) macros

def addSource (lists : List Text × List Text) (line : Text) : List Text × List Text :=
  let src := setup.os.normpath (setup.os.join setup.infPath line)
  let folder := setup.os.dirname src
  (if lower (line.drop (line.length - 2)) = ".c".toList then lists.1 ++ [src] else lists.1,
    if folder ∈ lists.2 then lists.2 else lists.2 ++ [folder])

def hostFamily (family : Text) : Bool :=
  (family = "MSFT".toList && setup.os.name = .nt) || (family = "GCC".toList && setup.os.name = .posix)

def addOption (ccOptions line : Text) : Except PyError Text :=
  match splitOnce [':'] line with
  | none => .ok ccOptions
  | some (family, rest) =>
    if hostFamily setup (strip family) then
      match (splitOnce ['=', '='] rest).or (splitOnce ['='] rest) with
      | none => .error .value
      | some (tool, option) =>
        match split '_' (strip tool) with
        | [_, _, arch, tool, _] =>
          if (arch = setup.arch ∨ arch = ['*']) ∧ tool = "CC".toList then .ok (ccOptions ++ ' ' :: strip option)
          else .ok ccOptions
        | _ => .error .value
    else .ok ccOptions

def addPackages (pkgFiles : List Text) (line : Text) : List Text :=
  setup.pkgPaths.foldl (fun files pkgPath =>
    let pkg := setup.os.normpath (setup.os.join pkgPath line)
    if setup.pathExists pkg ∧ pkg ∉ files then files ++ [pkg] else files) pkgFiles

def cleanLine (raw : Text) : Text := strip (before '#' raw)

/-- One turn of the loop. A source section rewrites the line before the tests
that follow it, as the script does. -/
def scanLine (scan : Scan) (raw : Text) : Except PyError Scan :=
  let line := cleanLine raw
  if line = [] then .ok scan
  else if line.head? = some '[' then .ok (enterSection scan line)
  else do
    let macros ← (if scan.inDefSection then defineMacro scan.macros line else .ok scan.macros)
    let line := if scan.inSrcSection then sourceEntry macros line else line
    let lists := (scan.srcFiles, scan.incPaths)
    let lists := if scan.inSrcSection then addSource setup lists line else lists
    let ccOptions ← (if scan.inBldSection then addOption setup scan.ccOptions line else .ok scan.ccOptions)
    let pkgFiles := if scan.inPkgSection then addPackages setup scan.pkgFiles line else scan.pkgFiles
    return { scan with macros, srcFiles := lists.1, incPaths := lists.2, ccOptions, pkgFiles }

def scanInf (text : Text) : Except PyError Scan :=
  (readlines text).foldlM (scanLine setup) { incPaths := [setup.infPath] }

def includeLine (pkgFolder arch : Text) (state : Bool × List Text) (raw : Text) : Bool × List Text :=
  let line := cleanLine raw
  if line = [] then state
  else if line.head? = some '[' then
    (startswith line "[Includes".toList && (!contains line ['.'] || contains line arch), state.2)
  else if state.1 then (state.1, state.2 ++ [setup.os.normpath (setup.os.join pkgFolder line)])
  else state

def getPkgInc (pkg text arch : Text) : List Text :=
  ((readlines text).foldl (includeLine setup (setup.os.dirname pkg) arch) (false, [])).2

end SblPayload.Genhdr
