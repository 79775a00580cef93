import SblPayload.Library.PythonText

/-! The path functions of Python's `os.path` for POSIX, and the interface that
scripts use on either operating system. -/

namespace SblPayload.Library
open Text

inductive OsName where
  | posix
  | nt
deriving DecidableEq

structure Os where
  name : OsName
  pathsep : Char
  join : Text → Text → Text
  normpath : Text → Text
  dirname : Text → Text

namespace Posix

def join (first second : Text) : Text :=
  if startswith second ['/'] then second
  else if first = [] ∨ first.getLast? = some '/' then first ++ second
  else first ++ '/' :: second

/-- `comps` holds the components kept so far, the last one first. -/
def normalize (rooted : Bool) (comps : List Text) : List Text → List Text
  | [] => comps.reverse
  | comp :: rest =>
    if comp = [] ∨ comp = ['.'] then normalize rooted comps rest
    else if comp ≠ ['.', '.'] ∨ (rooted = false ∧ comps = []) ∨ comps.head? = some ['.', '.'] then
      normalize rooted (comp :: comps) rest
    else normalize rooted comps.tail rest

def initialSlashes (path : Text) : Text :=
  if startswith path ['/', '/'] ∧ ¬ startswith path ['/', '/', '/'] then ['/', '/']
  else if startswith path ['/'] then ['/']
  else []

def normpath (path : Text) : Text :=
  if path = [] then ['.']
  else
    let slashes := initialSlashes path
    let kept := slashes ++ ['/'].intercalate (normalize (slashes ≠ []) [] (split '/' path))
    if kept = [] then ['.'] else kept

/-- What precedes the last slash, without slashes at its end unless it is all
slashes. -/
def dirname (path : Text) : Text :=
  let head := path.rdropWhile (· != '/')
  if head.all (· == '/') then head else head.rdropWhile (· == '/')

def os : Os := ⟨.posix, ':', join, normpath, dirname⟩

end Posix

end SblPayload.Library
