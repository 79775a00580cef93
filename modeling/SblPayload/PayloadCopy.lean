import SblPayload.Library.CopyTree
import SblPayload.Library.PythonText

/-! How `prep_mpy` in `BuildMicroPython.py` copies the payload into the tree of the
loader, before it generates the headers there. A path is the list of its names. -/

namespace SblPayload.PayloadCopy
open Library

variable {Content : Type}

def ignorePatterns : List Text := [".git".toList, "slimbootloader".toList, "Build".toList, "Conf".toList]

/-- None of the patterns holds a wildcard. -/
def ignored (name : Text) : Bool := ignorePatterns.contains name

def payloadModPkg : Text := "PayloadModPkg".toList

def mpyPmodDir (sblDir : List Text) : List Text := sblDir ++ [payloadModPkg]

/-- `depth` bounds the recursion of `shutil.copytree`. -/
def copyPayload (listing : Listing Text Content) (depth : Nat) (tree : FileTree Text Content)
    (mpyDir sblDir : List Text) : Option (Copied Text Content) :=
  match if (tree.node (mpyPmodDir sblDir)).isSome then some tree else tree.makedirs (mpyPmodDir sblDir) with
  | none => some ⟨tree, true⟩
  | some made =>
    -- os.path.samefile, without links
    if mpyDir = mpyPmodDir sblDir then some ⟨made, false⟩
    else CopyTree.copytree listing ignored depth made mpyDir (mpyPmodDir sblDir)

end SblPayload.PayloadCopy
