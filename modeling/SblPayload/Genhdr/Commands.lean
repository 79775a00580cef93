import SblPayload.Library.Shlex
import SblPayload.Genhdr.Tools

/-! The command lines of the programs a run starts. All but one are put together
as a text and split again. -/

namespace SblPayload.Genhdr
open Library Text

/-- A call of a helper that starts a program, with the paths it is given. -/
inductive Command where
  | preprocess (inFile outFile : Text) (incs : List Text) (option : Text)
  | collectQstr (src mpyDir qstrDir : Text)
  | collectModules (src mpyDir moduleDir : Text)
  | collectRootPointers (src mpyDir rootPointerDir : Text)
  | catQstr (dst mpyDir qstrDir : Text)
  | catModule (dst mpyDir moduleDir : Text)
  | catRootPointers (dst mpyDir rootPointerDir : Text)
  | genQstr (collectedQstr mpyDir : Text)
  | genModule (collectedModule mpyDir : Text)
  | genRootPointers (collectedRootPointer mpyDir : Text)
  | genVersion (mpyDir hdrFile : Text)

def incFlag : OsName → Text
  | .posix => "-I".toList
  | .nt => "/I".toList

def outFlag : OsName → Text
  | .posix => "-o".toList
  | .nt => "/Fi".toList

def preprocessCommand (name : OsName) (inFile outFile : Text) (incs : List Text) (option : Text) : Text :=
  let incOption := (' ' :: incFlag name).intercalate incs
  option ++ ' ' :: (incFlag name ++ (incOption ++ ' ' :: (outFlag name ++ (outFile ++ ' ' :: inFile))))

/-- The preprocessor with its first arguments, as the script is started with `pp`. -/
def PP_CMD (name : OsName) (pp : Text) : List Text :=
  match name with
  | .posix => [pp, "-x".toList, "c".toList, "-E".toList, "-Wp,-w".toList]
  | .nt => [pp, "/nologo".toList, "/P".toList]

def Mode.keyword : Mode → Text
  | .qstr => "qstr".toList
  | .module => "module".toList
  | .rootPointer => "root_pointer".toList

variable (os : Os)

/-- `os.path.join(mpy_dir, "py", name)` -/
def pyScript (mpyDir name : Text) : Text := os.join (os.join mpyDir "py".toList) name

def python : Text := "python".toList

/-- The arguments of the command lines, in the order of their format strings. -/
def splitWords (mode : Mode) (src mpyDir folder : Text) : List Text :=
  [python, pyScript os mpyDir "makeqstrdefs.py".toList, "split".toList, mode.keyword, src, folder, "dummy".toList]

def catWords (mode : Mode) (dst mpyDir folder : Text) : List Text :=
  [python, pyScript os mpyDir "makeqstrdefs.py".toList, "cat".toList, mode.keyword, "dummy".toList, folder, dst]

def genWords (script mpyDir collected : Text) : List Text := [python, pyScript os mpyDir script, collected]

/-- The list of arguments a program is started with; none where splitting raises. -/
def argv (ppCmd : List Text) : Command → Option (List Text)
  | .preprocess inFile outFile incs option =>
    (Shlex.split (preprocessCommand os.name inFile outFile incs option)).map (ppCmd ++ ·)
  | .collectQstr src mpyDir qstrDir => Shlex.split (Shlex.unwords (splitWords os .qstr src mpyDir qstrDir))
  | .collectModules src mpyDir moduleDir => Shlex.split (Shlex.unwords (splitWords os .module src mpyDir moduleDir))
  | .collectRootPointers src mpyDir rootPointerDir =>
    Shlex.split (Shlex.unwords (splitWords os .rootPointer src mpyDir rootPointerDir))
  | .catQstr dst mpyDir qstrDir => Shlex.split (Shlex.unwords (catWords os .qstr (dst ++ ".tmp".toList) mpyDir qstrDir))
  | .catModule dst mpyDir moduleDir => Shlex.split (Shlex.unwords (catWords os .module dst mpyDir moduleDir))
  | .catRootPointers dst mpyDir rootPointerDir =>
    Shlex.split (Shlex.unwords (catWords os .rootPointer dst mpyDir rootPointerDir))
  | .genQstr collectedQstr mpyDir =>
    Shlex.split (Shlex.unwords (genWords os "makeqstrdata.py".toList mpyDir (collectedQstr ++ ".i".toList)))
  | .genModule collectedModule mpyDir =>
    Shlex.split (Shlex.unwords (genWords os "makemoduledefs.py".toList mpyDir collectedModule))
  | .genRootPointers collectedRootPointer mpyDir =>
    Shlex.split (Shlex.unwords (genWords os "make_root_pointers.py".toList mpyDir collectedRootPointer))
  | .genVersion mpyDir hdrFile => some (genWords os "makeversionhdr.py".toList mpyDir hdrFile)

end SblPayload.Genhdr
