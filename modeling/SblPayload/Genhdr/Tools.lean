import SblPayload.Library.ScriptLogic
import SblPayload.Library.Directory
import SblPayload.Genhdr.InfScan
import Mathlib.Data.Char
import Mathlib.Data.List.Lex

/-! The files of a run of `genhdr.py` and the programs it starts. What a program
writes is data of the model: only its exit status and its output are unknown. -/

namespace SblPayload.Genhdr
open Library Text

inductive Mode where
  | qstr
  | module
  | rootPointer
deriving DecidableEq

/-- A file of a run: a source, the preprocessed text next to it (its path with
`.i`), or a file of `MicroPython/genhdr`, by name. -/
inductive File where
  | source (path : Text)
  | preprocessed (path : Text)
  | genhdr (name : Text)
deriving DecidableEq

/-- One run of a program, with the texts of the files it is given to read, none
for a file that is not there. -/
inductive Invocation where
  | makeversionhdr
  | preprocessor (options : Text) (inFile : File) (input : Option Text)
  | split (mode : Mode) (src : Text) (input : Option Text)
  | cat (mode : Mode) (fragments : Directory Text Char)
  | makeqstrdata (input : Option Text)
  | makemoduledefs (input : Option Text)
  | makeRootPointers (input : Option Text)

structure Completed where
  returncode : Nat
  output : Text

/-- The programs outside the repository. The number is the turn of the run among
all runs of the script, so that the same command may end differently twice. -/
structure Tools where
  run : Nat → Invocation → Completed
  fragmentName : Text → Text
  digest : Text → Text

structure World where
  files : File → Option Text
  fragments : Mode → Option (Directory Text Char)
  runs : List (Invocation × Nat)

namespace World

def write (world : World) (file : File) (text : Text) : World :=
  { world with files := fun other => if other = file then some text else world.files other }

def remove (world : World) (file : File) : World :=
  { world with files := fun other => if other = file then none else world.files other }

def place (world : World) (mode : Mode) (fragments : Directory Text Char) : World :=
  { world with fragments := fun other => if other = mode then some fragments else world.fragments other }

def after (world : World) (tools : Tools) (invocation : Invocation) : World :=
  { world with runs := world.runs ++ [(invocation, (tools.run world.runs.length invocation).returncode)] }

/-- The fragments a program sees: those of a directory that is not there are none. -/
def present (world : World) (mode : Mode) : Directory Text Char := (world.fragments mode).getD Directory.empty

variable (world : World) (tools : Tools)

@[simp] theorem write_runs (file : File) (text : Text) : (world.write file text).runs = world.runs := rfl
@[simp] theorem write_fragments (file : File) (text : Text) : (world.write file text).fragments = world.fragments := rfl
@[simp] theorem write_present (file : File) (text : Text) (mode : Mode) :
    (world.write file text).present mode = world.present mode := rfl
@[simp] theorem write_files (file other : File) (text : Text) :
    (world.write file text).files other = if other = file then some text else world.files other := rfl

@[simp] theorem write_write (file : File) (first second : Text) :
    (world.write file first).write file second = world.write file second := by
  simp only [write, World.mk.injEq, and_true]
  funext other
  split <;> rfl

@[simp] theorem remove_runs (file : File) : (world.remove file).runs = world.runs := rfl
@[simp] theorem remove_fragments (file : File) : (world.remove file).fragments = world.fragments := rfl
@[simp] theorem remove_present (file : File) (mode : Mode) : (world.remove file).present mode = world.present mode := rfl
@[simp] theorem remove_files (file other : File) :
    (world.remove file).files other = if other = file then none else world.files other := rfl

@[simp] theorem place_runs (mode : Mode) (fragments : Directory Text Char) :
    (world.place mode fragments).runs = world.runs := rfl
@[simp] theorem place_files (mode : Mode) (fragments : Directory Text Char) :
    (world.place mode fragments).files = world.files := rfl
@[simp] theorem place_fragments (mode other : Mode) (fragments : Directory Text Char) :
    (world.place mode fragments).fragments other = if other = mode then some fragments else world.fragments other := rfl

@[simp] theorem place_present (mode other : Mode) (fragments : Directory Text Char) :
    (world.place mode fragments).present other = if other = mode then fragments else world.present other := by
  unfold present
  rw [place_fragments]
  split <;> rfl

@[simp] theorem after_files (invocation : Invocation) : (world.after tools invocation).files = world.files := rfl
@[simp] theorem after_fragments (invocation : Invocation) :
    (world.after tools invocation).fragments = world.fragments := rfl
@[simp] theorem after_present (invocation : Invocation) (mode : Mode) :
    (world.after tools invocation).present mode = world.present mode := rfl
@[simp] theorem after_runs (invocation : Invocation) : (world.after tools invocation).runs =
    world.runs ++ [(invocation, (tools.run world.runs.length invocation).returncode)] := rfl

end World

abbrev Run := Script World PyError

/-- `subprocess.run` without `check`: whatever the exit status, the script goes on. -/
def subprocessRun (tools : Tools) (invocation : Invocation) : Run Completed := do
  let world ← get
  set (world.after tools invocation)
  return tools.run world.runs.length invocation

def checkCall (tools : Tools) (invocation : Invocation) : Run Text := do
  let completed ← subprocessRun tools invocation
  if completed.returncode = 0 then return completed.output else throw .calledProcess

def readFile (file : File) : Run Text := do
  match (← get).files file with
  | some text => return text
  | none => throw .fileNotFound

def osRemove (file : File) : Run PUnit := do
  let world ← get
  match world.files file with
  | some _ => set (world.remove file)
  | none => throw .fileNotFound

def writeFile (file : File) (text : Text) : Run PUnit := modify (·.write file text)

/-- `for file in os.listdir(folder): os.remove(os.path.join(folder, file))` -/
def removeListed (mode : Mode) : Run PUnit := do
  let world ← get
  match world.fragments mode with
  | some _ => set (world.place mode Directory.empty)
  | none => throw .fileNotFound

variable {tools : Tools} {world : World}

@[simp] theorem exec_subprocessRun (invocation : Invocation) :
    (subprocessRun tools invocation).exec world =
      (.ok (tools.run world.runs.length invocation), world.after tools invocation) := rfl

theorem exec_checkCall (invocation : Invocation) :
    (checkCall tools invocation).exec world =
      if (tools.run world.runs.length invocation).returncode = 0 then
        (.ok (tools.run world.runs.length invocation).output, world.after tools invocation)
      else (.error .calledProcess, world.after tools invocation) := by
  simp only [checkCall, Script.exec_bind, exec_subprocessRun]
  split <;> rfl

theorem checkCall_leads (invocation : Invocation) :
    Script.Leads (checkCall tools invocation) world ((tools.run world.runs.length invocation).returncode = 0)
      (tools.run world.runs.length invocation).output (world.after tools invocation) := by
  unfold Script.Leads
  rw [exec_checkCall]
  by_cases succeeded : (tools.run world.runs.length invocation).returncode = 0
  · rw [if_pos succeeded]
    exact ⟨succeeded, rfl, rfl⟩
  · rw [if_neg succeeded]
    exact succeeded

theorem exec_readFile {file : File} {text : Text} (found : world.files file = some text) :
    (readFile file).exec world = (.ok text, world) := by
  simp [readFile, Script.exec_bind, found]

theorem exec_osRemove {file : File} {text : Text} (found : world.files file = some text) :
    (osRemove file).exec world = (.ok ⟨⟩, world.remove file) := by
  simp [osRemove, Script.exec_bind, found]

@[simp] theorem exec_writeFile (file : File) (text : Text) :
    (writeFile file text).exec world = (.ok ⟨⟩, world.write file text) := rfl

theorem removeListed_leads (mode : Mode) :
    Script.Leads (removeListed mode) world (world.fragments mode).isSome ⟨⟩ (world.place mode Directory.empty) := by
  cases found : world.fragments mode with
  | some fragments =>
    refine (Script.Leads.of_exec ?_).congr (by simp)
    simp [removeListed, Script.exec_bind, found]
  | none =>
    refine (@Script.Leads.of_error _ _ _ _ world world _ _ .fileNotFound ?_).congr (by simp)
    simp [removeListed, Script.exec_bind, found]

end SblPayload.Genhdr
