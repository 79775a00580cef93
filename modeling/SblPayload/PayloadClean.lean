import SblPayload.Library.CopyTree
import SblPayload.Library.PythonText
import SblPayload.Library.Removal

/-! `cmd_clean` in `BuildMicroPython.py`, on the tree the payload is built in. -/

namespace SblPayload.PayloadClean
open Library

variable {Content : Type}

structure CleanArgs where
  noCleanSbl : Bool
  delSbl : Bool

def buildDir (mpyDir : List Text) : List Text := mpyDir ++ ["Build".toList]

/-- Where a build looks for a loader of its own, and where it fetches one to. -/
def sblDir (mpyDir : List Text) : List Text := mpyDir ++ ["slimbootloader".toList]

/-- What `git clean -xdf` leaves when it runs in a directory, none when it cannot. -/
abbrev GitClean (Content : Type) := FileTree Text Content → List Text → Option (FileTree Text Content)

def cmdClean (git : GitClean Content) (tree : FileTree Text Content) (mpyDir : List Text) (args : CleanArgs) :
    Copied Text Content :=
  let tree := tree.rmtree (buildDir mpyDir)
  if (tree.node (sblDir mpyDir)).isSome then
    if args.delSbl then ⟨tree.rmtree (sblDir mpyDir), false⟩
    else if args.noCleanSbl then ⟨tree, false⟩
    else match git tree (sblDir mpyDir) with
      | some left => ⟨left, false⟩
      | none => ⟨tree, true⟩
  else ⟨tree, false⟩

end SblPayload.PayloadClean
