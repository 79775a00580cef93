import SblPayload.Genhdr.Commands
import SblPayload.Genhdr.Qstr

/-! The functions of `genhdr.py` that work on files, and its `main`. -/

namespace SblPayload.Genhdr
open Library Text

/-- What a run finds outside the directory it writes: the environment variables,
the file system, the texts of the files it only reads, and how the preprocessor is
started. -/
structure Host where
  os : Os
  PP_CMD : List Text := []
  PACKAGES_PATH : Option Text
  WORKSPACE : Option Text
  abspath : Text → Text
  pathExists : Text → Bool
  readText : Text → Option Text

structure Args where
  infFile : Text
  arch : Text

structure Plan where
  infPath : Text
  srcFiles : List Text
  incPaths : List Text
  ccOptions : Text
deriving DecidableEq

variable (tools : Tools) (host : Host)

def Host.openText (path : Text) : Except PyError Text :=
  match host.readText path with
  | some text => .ok text
  | none => .error .fileNotFound

def plan (args : Args) : Except PyError Plan := do
  let paths ← match host.PACKAGES_PATH.or host.WORKSPACE with
    | some paths => .ok paths
    | none => .error .environment
  let infFile := host.abspath args.infFile
  let infPath := host.os.dirname infFile
  let setup : Setup := ⟨host.os, args.arch, split host.os.pathsep paths, infPath, host.pathExists⟩
  let scan ← scanInf setup (← host.openText infFile)
  let pkgIncs ← scan.pkgFiles.mapM fun pkg => do return getPkgInc setup pkg (← host.openText pkg) args.arch
  return ⟨infPath, scan.srcFiles, pkgIncs.flatten ++ scan.incPaths, scan.ccOptions⟩

/-- Text mode translates line feeds on the way out. -/
def textOut (text : Text) : Text :=
  match host.os.name with
  | .posix => text
  | .nt => replace text ['\n'] ['\r', '\n']

def mpyDir (infPath : Text) : Text := host.os.join infPath "MicroPython".toList

def genhdrPath (infPath name : Text) : Text := host.os.join (host.os.join (mpyDir host infPath) "genhdr".toList) name

/-- `qstr_dir`, `module_dir` and `root_pointer_dir`. -/
def fragmentDir (infPath : Text) (mode : Mode) : Text := genhdrPath host infPath mode.keyword

/-- `shlex.split` of a command line, with the exception it raises in a quotation that
is not closed. -/
def splitCommand (command : Command) : Run PUnit := Script.ensure (argv host.os host.PP_CMD command).isSome .value

/-- Each path is given with the file it names. -/
def preprocess (inPath outPath : Text) (inFile outFile : File) (incs : List Text) (option : Text) : Run PUnit := do
  splitCommand host (.preprocess inPath outPath incs option)
  let flag := match host.os.name with
    | .posix => " -I".toList
    | .nt => " /I".toList
  let input := (← get).files inFile
  let output ← checkCall tools (.preprocessor (option ++ flag ++ flag.intercalate incs) inFile input)
  writeFile outFile output

/-- `makeqstrdefs.py split`: one fragment, named after the source. The directory
is made when it is not there. -/
def splitFragment (command : Command) (mode : Mode) (src : Text) : Run PUnit := do
  splitCommand host command
  let input := (← get).files (.preprocessed src)
  let fragment ← checkCall tools (.split mode src input)
  modify fun world => world.place mode ((world.present mode).insert (tools.fragmentName src) fragment)

def collectRootPointers (infPath src : Text) : Run PUnit :=
  splitFragment tools host (.collectRootPointers (src ++ ".i".toList) (mpyDir host infPath)
    (fragmentDir host infPath .rootPointer)) .rootPointer src

def collectModules (infPath src : Text) : Run PUnit :=
  splitFragment tools host (.collectModules (src ++ ".i".toList) (mpyDir host infPath)
    (fragmentDir host infPath .module)) .module src

def collectQstr (infPath src : Text) : Run PUnit :=
  splitFragment tools host (.collectQstr (src ++ ".i".toList) (mpyDir host infPath)
    (fragmentDir host infPath .qstr)) .qstr src

/-- `makeqstrdefs.py cat`: all fragments of the directory, and their digest. -/
def catFragments (command : Command) (mode : Mode) (dst : Text) : Run PUnit := do
  splitCommand host command
  let fragments := (← get).present mode
  let collected ← checkCall tools (.cat mode fragments)
  writeFile (.genhdr dst) collected
  writeFile (.genhdr (dst ++ ".hash".toList)) (tools.digest collected)

/-- `cat_root_pointers` and `cat_module`, but for the mode. -/
def catAndClear (command : Command) (mode : Mode) (dst : Text) : Run PUnit := do
  catFragments tools host command mode dst
  osRemove (.genhdr (dst ++ ".hash".toList))
  removeListed mode

def catRootPointers (infPath dst : Text) : Run PUnit :=
  catAndClear tools host (.catRootPointers (genhdrPath host infPath dst) (mpyDir host infPath)
    (fragmentDir host infPath .rootPointer)) .rootPointer dst

def catModule (infPath dst : Text) : Run PUnit :=
  catAndClear tools host (.catModule (genhdrPath host infPath dst) (mpyDir host infPath)
    (fragmentDir host infPath .module)) .module dst

/-- `gen_root_pointers` and `gen_module`, but for the program: its exit status is
not looked at. -/
def generate (command : Command) (program : Option Text → Invocation) (file collected : Text) : Run PUnit := do
  splitCommand host command
  let input := (← get).files (.genhdr collected)
  let result ← subprocessRun tools (program input)
  writeFile (.genhdr file) result.output
  osRemove (.genhdr (file ++ ".tmp".toList))

def genRootPointers (infPath rootPointerFile collected : Text) : Run PUnit :=
  generate tools host (.genRootPointers (genhdrPath host infPath collected) (mpyDir host infPath)) .makeRootPointers
    rootPointerFile collected

def genModule (infPath moduleFile collected : Text) : Run PUnit :=
  generate tools host (.genModule (genhdrPath host infPath collected) (mpyDir host infPath)) .makemoduledefs moduleFile
    collected

def forcedQstr : Text := "Q(IA32)\nQ(X64)\n".toList

def qstrdefs (infPath : Text) : Text :=
  host.os.join (host.os.join (mpyDir host infPath) "py".toList) "qstrdefs.h".toList

def catQstr (infPath dst : Text) : Run PUnit := do
  let tmp := dst ++ ".tmp".toList
  catFragments tools host (.catQstr (genhdrPath host infPath dst) (mpyDir host infPath) (fragmentDir host infPath .qstr))
    .qstr tmp
  writeFile (.genhdr dst) []
  let predefined ← Script.ofExcept (host.openText (qstrdefs host infPath))
  let collected ← readFile (.genhdr tmp)
  writeFile (.genhdr dst) (textOut host
    (universalNewlines predefined ++ universalNewlines collected ++ ['\r', '\n'] ++ forcedQstr))
  osRemove (.genhdr tmp)
  osRemove (.genhdr (tmp ++ ".hash".toList))
  removeListed .qstr

def genQstr (infPath qstrFile collectedQstr : Text) (incs : List Text) (option : Text) : Run PUnit := do
  let content ← readFile (.genhdr collectedQstr)
  writeFile (.genhdr collectedQstr) (textOut host (quoteEntries (universalNewlines content)))
  let ppFile := collectedQstr ++ ".i".toList
  let path := genhdrPath host infPath collectedQstr
  preprocess tools host path (path ++ ".i".toList) (.genhdr collectedQstr) (.genhdr ppFile) incs option
  let content ← readFile (.genhdr ppFile)
  writeFile (.genhdr ppFile) (textOut host (unquoteEntries (universalNewlines content)))
  writeFile (.genhdr qstrFile) []
  splitCommand host (.genQstr path (mpyDir host infPath))
  let input := (← get).files (.genhdr ppFile)
  let output ← checkCall tools (.makeqstrdata input)
  writeFile (.genhdr qstrFile) output
  osRemove (.genhdr collectedQstr)
  osRemove (.genhdr ppFile)

def genVersion (hdrFile : Text) : Run PUnit := do
  let output ← checkCall tools .makeversionhdr
  writeFile (.genhdr hdrFile) output

def clearFile (file : Text) : Run PUnit := writeFile (.genhdr file) []

def makedirs (mode : Mode) : Run PUnit := modify (·.place mode Directory.empty)

/-- Removing `.` itself fails and the failure is ignored: what stays is the empty
directory. -/
def clearTree (mode : Mode) : Run PUnit := modify (·.place mode Directory.empty)

def prepareQstrDir : Run PUnit := do
  match (← get).fragments .qstr with
  | none => makedirs .qstr
  | some _ => clearTree .qstr

/-- One turn of the loop over the sources. -/
def collectSource (infPath : Text) (incs : List Text) (option src : Text) : Run PUnit := do
  preprocess tools host src (src ++ ".i".toList) (.source src) (.preprocessed src) incs option
  collectQstr tools host infPath src
  collectModules tools host infPath src
  collectRootPointers tools host infPath src
  osRemove (.preprocessed src)

def collectedQstrFile : Text := "qstrdefs.collected.h".toList
def collectedRpFile : Text := "root_pointers.h.tmp".toList
def collectedModuleFile : Text := "moduledefs.h.tmp".toList
def qstrFile : Text := "qstrdefs.generated.h".toList
def moduleFile : Text := "moduledefs.h".toList
def rootPointerFile : Text := "root_pointers.h".toList

/-- The second half of `main`. Only the directory of the qstr fragments is made
empty before the sources are split. -/
def produce (plan : Plan) : Run PUnit := do
  genVersion tools "mpversion.h".toList
  clearFile qstrFile
  prepareQstrDir
  plan.srcFiles.forM (collectSource tools host plan.infPath plan.incPaths plan.ccOptions)
  catQstr tools host plan.infPath collectedQstrFile
  genQstr tools host plan.infPath qstrFile collectedQstrFile plan.incPaths plan.ccOptions
  catModule tools host plan.infPath collectedModuleFile
  genModule tools host plan.infPath moduleFile collectedModuleFile
  catRootPointers tools host plan.infPath collectedRpFile
  genRootPointers tools host plan.infPath rootPointerFile collectedRpFile

def main (args : Args) : Run PUnit := do
  let plan ← Script.ofExcept (plan host args)
  produce tools host plan

end SblPayload.Genhdr
