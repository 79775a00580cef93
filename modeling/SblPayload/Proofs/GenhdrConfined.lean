import SblPayload.Genhdr.Main
import SblPayload.Library.ScriptChanges

/-! What `main` of `genhdr.py` can have changed when it stops, by returning or by
any exception: its own files, and nothing else. -/

namespace SblPayload.Proofs.GenhdrConfined
open Library Text Script Genhdr

def headerFiles : List Text := ["mpversion.h".toList, qstrFile, moduleFile, rootPointerFile]

/-- The files of `genhdr` that are there only while `main` runs. -/
def temporaries : List Text :=
  [collectedQstrFile, collectedQstrFile ++ ".i".toList, collectedQstrFile ++ ".tmp".toList,
    collectedQstrFile ++ ".tmp".toList ++ ".hash".toList, collectedModuleFile, collectedModuleFile ++ ".hash".toList,
    collectedRpFile, collectedRpFile ++ ".hash".toList]

/-- A name of `genhdr` that `main` uses. -/
abbrev Named (name : Text) : Prop := name ∈ headerFiles ∨ name ∈ temporaries

/-- The files `main` may write or remove when these sources are listed. -/
def Own (listed : List Text) : File → Prop
  | .source _ => False
  | .preprocessed path => path ∈ listed
  | .genhdr name => Named name

variable (tools : Tools) (host : Host)

structure Confined (listed : List Text) (before after : World) : Prop where
  files : ∀ file, ¬ Own listed file → after.files file = before.files file
  fragments : ∀ mode, ∀ entry ∈ (after.present mode).entries,
    entry ∈ (before.present mode).entries ∨ entry.1 ∈ listed.map tools.fragmentName
  directories : ∀ mode, (before.fragments mode).isSome → (after.fragments mode).isSome
  runs : before.runs <+: after.runs

def confined (listed : List Text) : Changes World where
  allowed := Confined tools listed
  refl world := ⟨fun _ _ => rfl, fun _ _ member => Or.inl member, fun _ => id, List.prefix_rfl⟩
  trans first second := by
    constructor
    · intro file foreign
      rw [second.files file foreign, first.files file foreign]
    · intro mode entry member
      rcases second.fragments mode entry member with kept | fresh
      · exact first.fragments mode entry kept
      · exact Or.inr fresh
    · exact fun mode there => second.directories mode (first.directories mode there)
    · exact first.runs.trans second.runs

section Steps

variable {tools} {listed : List Text}

theorem confined_write {file : File} (own : Own listed file) (world : World) (text : Text) :
    Confined tools listed world (world.write file text) where
  files other foreign := by
    rw [World.write_files, if_neg]
    rintro rfl
    exact foreign own
  fragments _ _ member := Or.inl member
  directories _ := id
  runs := List.prefix_rfl

theorem confined_remove {file : File} (own : Own listed file) (world : World) :
    Confined tools listed world (world.remove file) where
  files other foreign := by
    rw [World.remove_files, if_neg]
    rintro rfl
    exact foreign own
  fragments _ _ member := Or.inl member
  directories _ := id
  runs := List.prefix_rfl

theorem confined_after (world : World) (invocation : Invocation) :
    Confined tools listed world (world.after tools invocation) where
  files _ _ := rfl
  fragments _ _ member := Or.inl member
  directories _ := id
  runs := List.prefix_append _ _

theorem confined_place {mode : Mode} {world : World} {fragments : Directory Text Char}
    (known : ∀ entry ∈ fragments.entries, entry ∈ (world.present mode).entries ∨ entry.1 ∈ listed.map tools.fragmentName) :
    Confined tools listed world (world.place mode fragments) where
  files _ _ := rfl
  fragments other entry member := by
    rw [World.place_present] at member
    split at member
    next same => exact same ▸ known entry member
    next => exact Or.inl member
  directories other there := by
    rw [World.place_fragments]
    split
    · rfl
    · exact there
  runs := List.prefix_rfl

theorem confined_emptied (mode : Mode) (world : World) :
    Confined tools listed world (world.place mode Directory.empty) := by
  apply confined_place
  intro entry member
  cases member

variable (tools listed) in
abbrev Stays {α : Type} (script : Run α) : Prop := Within (confined tools listed) script

theorem subprocessRun_stays (invocation : Invocation) : Stays tools listed (subprocessRun tools invocation) :=
  fun world => confined_after world invocation

theorem checkCall_stays (invocation : Invocation) : Stays tools listed (checkCall tools invocation) := by
  apply Within.bind (subprocessRun_stays invocation)
  intro completed
  split
  · exact Within.pure _
  · exact Within.throw _

theorem readFile_stays (file : File) : Stays tools listed (readFile file) := by
  apply Within.bind Within.get
  intro world
  split
  · exact Within.pure _
  · exact Within.throw _

theorem writeFile_stays {file : File} (own : Own listed file) (text : Text) : Stays tools listed (writeFile file text) :=
  Within.modify fun world => confined_write own world text

theorem osRemove_stays {file : File} (own : Own listed file) : Stays tools listed (osRemove file) := by
  apply Within.get_bind
  intro world
  split
  · exact confined_remove own world
  · exact (confined tools listed).refl world

theorem removeListed_stays (mode : Mode) : Stays tools listed (removeListed mode) := by
  apply Within.get_bind
  intro world
  split
  · exact confined_emptied mode world
  · exact (confined tools listed).refl world

theorem splitCommand_stays (command : Command) : Stays tools listed (splitCommand host command) := by
  intro world
  rw [splitCommand, exec_ensure]
  exact (confined tools listed).refl world

theorem preprocess_stays {outFile : File} (own : Own listed outFile) (inPath outPath : Text) (inFile : File)
    (incs : List Text) (option : Text) :
    Stays tools listed (preprocess tools host inPath outPath inFile outFile incs option) := by
  apply Within.bind (splitCommand_stays host _)
  intro _
  exact Within.bind Within.get fun _ => Within.bind (checkCall_stays _) fun output => writeFile_stays own output

theorem splitFragment_stays {src : Text} (member : src ∈ listed) (command : Command) (mode : Mode) :
    Stays tools listed (splitFragment tools host command mode src) := by
  apply Within.bind (splitCommand_stays host command)
  intro _
  apply Within.bind Within.get
  intro world
  apply Within.bind (checkCall_stays _)
  intro fragment
  apply Within.modify
  intro world
  apply confined_place
  intro entry inserted
  rcases Directory.mem_insert.mp inserted with rfl | kept
  · exact Or.inr (List.mem_map_of_mem member)
  · exact Or.inl kept.2

theorem collectSource_stays {src : Text} (member : src ∈ listed) (infPath : Text) (incs : List Text) (option : Text) :
    Stays tools listed (collectSource tools host infPath incs option src) := by
  have own : Own listed (.preprocessed src) := member
  apply Within.bind (preprocess_stays host own _ _ _ incs option)
  intro _
  apply Within.bind (splitFragment_stays host member _ .qstr)
  intro _
  apply Within.bind (splitFragment_stays host member _ .module)
  intro _
  apply Within.bind (splitFragment_stays host member _ .rootPointer)
  intro _
  exact osRemove_stays own

theorem writeNamed_stays {name : Text} (named : Named name) (text : Text) :
    Stays tools listed (writeFile (.genhdr name) text) := @writeFile_stays tools listed (.genhdr name) named text

theorem removeNamed_stays {name : Text} (named : Named name) : Stays tools listed (osRemove (.genhdr name)) :=
  @osRemove_stays tools listed (.genhdr name) named

theorem catFragments_stays {dst : Text} (named : Named dst) (hashed : Named (dst ++ ".hash".toList)) (command : Command)
    (mode : Mode) : Stays tools listed (catFragments tools host command mode dst) := by
  apply Within.bind (splitCommand_stays host command)
  intro _
  apply Within.bind Within.get
  intro world
  apply Within.bind (checkCall_stays _)
  intro collected
  apply Within.bind (writeNamed_stays named collected)
  intro _
  exact writeNamed_stays hashed _

theorem catAndClear_stays {dst : Text} (named : Named dst) (hashed : Named (dst ++ ".hash".toList)) (command : Command)
    (mode : Mode) : Stays tools listed (catAndClear tools host command mode dst) := by
  apply Within.bind (catFragments_stays host named hashed command mode)
  intro _
  apply Within.bind (removeNamed_stays hashed)
  intro _
  exact removeListed_stays mode

theorem generate_stays {file : Text} (named : Named file) (collected : Named (file ++ ".tmp".toList)) (command : Command)
    (program : Option Text → Invocation) (input : Text) :
    Stays tools listed (generate tools host command program file input) := by
  apply Within.bind (splitCommand_stays host command)
  intro _
  apply Within.bind Within.get
  intro world
  apply Within.bind (subprocessRun_stays _)
  intro result
  apply Within.bind (writeNamed_stays named _)
  intro _
  exact removeNamed_stays collected

theorem prepareQstrDir_stays : Stays tools listed prepareQstrDir := by
  apply Within.bind Within.get
  intro world
  split
  · exact Within.modify (confined_emptied .qstr)
  · exact Within.modify (confined_emptied .qstr)

theorem catQstr_stays (infPath : Text) : Stays tools listed (catQstr tools host infPath collectedQstrFile) := by
  have collected : Named collectedQstrFile := Or.inr (by decide)
  have tmp : Named (collectedQstrFile ++ ".tmp".toList) := Or.inr (by decide)
  have hash : Named (collectedQstrFile ++ ".tmp".toList ++ ".hash".toList) := Or.inr (by decide)
  apply Within.bind (catFragments_stays host tmp hash _ .qstr)
  intro _
  apply Within.bind (writeNamed_stays collected _)
  intro _
  apply Within.bind (Within.ofExcept _)
  intro predefined
  apply Within.bind (readFile_stays _)
  intro text
  apply Within.bind (writeNamed_stays collected _)
  intro _
  apply Within.bind (removeNamed_stays tmp)
  intro _
  apply Within.bind (removeNamed_stays hash)
  intro _
  exact removeListed_stays .qstr

theorem genQstr_stays (infPath : Text) (incs : List Text) (option : Text) :
    Stays tools listed (genQstr tools host infPath qstrFile collectedQstrFile incs option) := by
  have collected : Named collectedQstrFile := Or.inr (by decide)
  have expanded : Named (collectedQstrFile ++ ".i".toList) := Or.inr (by decide)
  have header : Named qstrFile := Or.inl (by decide)
  apply Within.bind (readFile_stays _)
  intro content
  apply Within.bind (writeNamed_stays collected _)
  intro _
  apply Within.bind (@preprocess_stays tools host listed (.genhdr (collectedQstrFile ++ ".i".toList)) expanded _ _ _ incs
    option)
  intro _
  apply Within.bind (readFile_stays _)
  intro content
  apply Within.bind (writeNamed_stays expanded _)
  intro _
  apply Within.bind (writeNamed_stays header _)
  intro _
  apply Within.bind (splitCommand_stays host _)
  intro _
  apply Within.bind Within.get
  intro world
  apply Within.bind (checkCall_stays _)
  intro output
  apply Within.bind (writeNamed_stays header output)
  intro _
  apply Within.bind (removeNamed_stays collected)
  intro _
  exact removeNamed_stays expanded

theorem produce_stays (plan : Plan) : Stays tools plan.srcFiles (produce tools host plan) := by
  have version : Named "mpversion.h".toList := Or.inl (by decide)
  have qstr : Named qstrFile := Or.inl (by decide)
  have modules : Named moduleFile := Or.inl (by decide)
  have collectedModules : Named collectedModuleFile := Or.inr (by decide)
  have modulesHash : Named (collectedModuleFile ++ ".hash".toList) := Or.inr (by decide)
  have pointers : Named rootPointerFile := Or.inl (by decide)
  have collectedPointers : Named collectedRpFile := Or.inr (by decide)
  have pointersHash : Named (collectedRpFile ++ ".hash".toList) := Or.inr (by decide)
  apply Within.bind (Within.bind (checkCall_stays _) fun output => writeNamed_stays version output)
  intro _
  apply Within.bind (writeNamed_stays qstr _)
  intro _
  apply Within.bind prepareQstrDir_stays
  intro _
  apply Within.bind (Within.forM fun src member => collectSource_stays host member plan.infPath plan.incPaths plan.ccOptions)
  intro _
  apply Within.bind (catQstr_stays host plan.infPath)
  intro _
  apply Within.bind (genQstr_stays host plan.infPath plan.incPaths plan.ccOptions)
  intro _
  apply Within.bind (catAndClear_stays host collectedModules modulesHash _ .module)
  intro _
  apply Within.bind (generate_stays host modules collectedModules _ _ _)
  intro _
  apply Within.bind (catAndClear_stays host collectedPointers pointersHash _ .rootPointer)
  intro _
  exact generate_stays host pointers collectedPointers _ _ _

end Steps

end SblPayload.Proofs.GenhdrConfined
