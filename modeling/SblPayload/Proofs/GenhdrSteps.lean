import SblPayload.Genhdr.Main

/-! When each function of `genhdr.py` returns, and what files it then leaves. A
function returns only when its command lines can be split, and after a success where it
starts a program with `check_call`. -/

namespace SblPayload.Genhdr
open Library Text Script

variable (tools : Tools) (host : Host) (world : World)

theorem name_ne_suffixed (name : Text) {suffix : Text} (nonempty : suffix ≠ []) : name ++ suffix ≠ name := by
  intro same
  exact nonempty (List.append_right_eq_self.mp same)

theorem tmp_hash_ne (dst : Text) : dst ++ ".tmp".toList ++ ".hash".toList ≠ dst := by
  rw [List.append_assoc]
  exact name_ne_suffixed dst (by decide)

def Succeeds (invocation : Invocation) : Prop := (tools.run world.runs.length invocation).returncode = 0

def World.output (invocation : Invocation) : Text := (tools.run world.runs.length invocation).output

/-- All these command lines can be split. -/
def Spelled (commands : List Command) : Prop := ∀ command ∈ commands, (argv host.os host.PP_CMD command).isSome

instance {commands : List Command} : Decidable (Spelled host commands) :=
  inferInstanceAs (Decidable (∀ command ∈ commands, (argv host.os host.PP_CMD command).isSome))

section Spelled
variable {host} {world} {α β : Type} {value : β} {good later : Prop} {commands more : List Command}
  {middle last : World}

theorem spelled_nil : Spelled host [] := List.forall_mem_nil _

theorem spelled_append : Spelled host (commands ++ more) ↔ Spelled host commands ∧ Spelled host more :=
  List.forall_mem_append

theorem splitCommand_leads (command : Command) :
    Leads (splitCommand host command) world (Spelled host [command]) ⟨⟩ world := by
  unfold Leads Spelled
  rw [splitCommand, exec_ensure, List.forall_mem_singleton]
  cases (argv host.os host.PP_CMD command).isSome with
  | true => exact ⟨rfl, rfl, rfl⟩
  | false => exact Bool.false_ne_true

theorem spelled_bind {first : Run α} {next : α → Run β} {between : α}
    (head : Leads first world (Spelled host commands ∧ good) between middle)
    (rest : Leads (next between) middle (Spelled host more ∧ later) value last) :
    Leads (first >>= next) world (Spelled host (commands ++ more) ∧ good ∧ later) value last := by
  apply (head.bind fun _ => rest).congr
  rw [spelled_append]
  exact and_and_and_comm

/-- A first part that starts nothing by a command line. -/
theorem spelled_after {first : Run α} {next : α → Run β} {between : α} (head : Leads first world good between middle)
    (rest : Leads (next between) middle (Spelled host more ∧ later) value last) :
    Leads (first >>= next) world (Spelled host more ∧ good ∧ later) value last :=
  (head.bind fun _ => rest).congr and_left_comm

/-- A first part, or a last one, that fails at its command line or not at all. -/
theorem spelled_first {first : Run α} {next : α → Run β} {between : α}
    (head : Leads first world (Spelled host commands) between middle)
    (rest : Leads (next between) middle (Spelled host more ∧ later) value last) :
    Leads (first >>= next) world (Spelled host (commands ++ more) ∧ later) value last := by
  apply (head.bind fun _ => rest).congr
  rw [spelled_append]
  exact and_assoc.symm

theorem spelled_last {first : Run α} {next : α → Run β} {between : α}
    (head : Leads first world (Spelled host commands ∧ good) between middle)
    (rest : Leads (next between) middle (Spelled host more) value last) :
    Leads (first >>= next) world (Spelled host (commands ++ more) ∧ good) value last := by
  apply (head.bind fun _ => rest).congr
  rw [spelled_append]
  exact and_right_comm

theorem spelled_forM {items : List α} {body : α → Run PUnit} {lines : α → List Command} {holds : α → World → Prop}
    {step : World → α → World}
    (each : ∀ item before, Leads (body item) before (Spelled host (lines item) ∧ holds item before) ⟨⟩ (step before item)) :
    Leads (items.forM body) world (Spelled host (items.flatMap lines) ∧ Leads.All holds step items world) ⟨⟩
      (items.foldl step world) := by
  induction items generalizing world with
  | nil => exact (Leads.of_exec rfl).congr (iff_of_true trivial ⟨spelled_nil, trivial⟩)
  | cons item items ih =>
    rw [List.flatMap_cons]
    exact spelled_bind (each item world) ih

end Spelled

def preprocessing (inFile : File) (incs : List Text) (option : Text) (input : Option Text) : Invocation :=
  let flag := match host.os.name with
    | .posix => " -I".toList
    | .nt => " /I".toList
  .preprocessor (option ++ flag ++ flag.intercalate incs) inFile input

theorem preprocess_leads (inPath outPath : Text) (inFile outFile : File) (incs : List Text) (option : Text) :
    let invocation := preprocessing host inFile incs option (world.files inFile)
    Leads (preprocess tools host inPath outPath inFile outFile incs option) world
      (Spelled host [.preprocess inPath outPath incs option] ∧ Succeeds tools world invocation) ⟨⟩
      ((world.after tools invocation).write outFile (world.output tools invocation)) :=
  (splitCommand_leads _).bind fun _ => Leads.step rfl ((checkCall_leads _).finish fun _ => rfl)

def World.split (mode : Mode) (src : Text) : World :=
  let invocation := .split mode src (world.files (.preprocessed src))
  (world.after tools invocation).place mode
    ((world.present mode).insert (tools.fragmentName src) (world.output tools invocation))

theorem splitFragment_leads (command : Command) (mode : Mode) (src : Text) :
    Leads (splitFragment tools host command mode src) world
      (Spelled host [command] ∧ Succeeds tools world (.split mode src (world.files (.preprocessed src)))) ⟨⟩
      (world.split tools mode src) :=
  (splitCommand_leads _).bind fun _ => Leads.step rfl ((checkCall_leads _).finish fun _ => rfl)

def World.cat (mode : Mode) (dst : Text) : World :=
  let invocation := .cat mode (world.present mode)
  let text := world.output tools invocation
  ((world.after tools invocation).write (.genhdr dst) text).write (.genhdr (dst ++ ".hash".toList)) (tools.digest text)

theorem catFragments_leads (command : Command) (mode : Mode) (dst : Text) :
    Leads (catFragments tools host command mode dst) world
      (Spelled host [command] ∧ Succeeds tools world (.cat mode (world.present mode))) ⟨⟩ (world.cat tools mode dst) :=
  (splitCommand_leads _).bind fun _ => Leads.step rfl ((checkCall_leads _).finish fun _ => rfl)

theorem catAndClear_leads (command : Command) (mode : Mode) (dst : Text) :
    Leads (catAndClear tools host command mode dst) world
      (Spelled host [command] ∧ Succeeds tools world (.cat mode (world.present mode)) ∧ (world.fragments mode).isSome) ⟨⟩
      (((world.cat tools mode dst).remove (.genhdr (dst ++ ".hash".toList))).place mode Directory.empty) := by
  refine ((catFragments_leads tools host world command mode dst).bind fun _ => ?_).congr and_assoc
  exact Leads.step (exec_osRemove (by simp only [World.cat, World.write_files, ↓reduceIte]; rfl)) (removeListed_leads mode)

theorem generate_leads (command : Command) (program : Option Text → Invocation) {file text : Text}
    (found : world.files (.genhdr (file ++ ".tmp".toList)) = some text) :
    Leads (generate tools host command program file (file ++ ".tmp".toList)) world (Spelled host [command]) ⟨⟩
      (((world.after tools (program (some text))).write (.genhdr file)
        (world.output tools (program (some text)))).remove (.genhdr (file ++ ".tmp".toList))) := by
  refine (splitCommand_leads command).finish fun _ => Leads.exec_eq ?_ trivial
  refine Leads.step rfl (Leads.step (exec_subprocessRun _) (Leads.step rfl (Leads.of_exec ?_)))
  rw [found]
  exact exec_osRemove (by rw [World.write_files, if_neg (by simp)]; exact found)

def World.catQstr (dst predefined : Text) : World :=
  let tmp := dst ++ ".tmp".toList
  let text := world.output tools (.cat .qstr (world.present .qstr))
  ((((world.cat tools .qstr tmp).write (.genhdr dst) (textOut host
    (universalNewlines predefined ++ universalNewlines text ++ ['\r', '\n'] ++ forcedQstr))).remove
      (.genhdr tmp)).remove (.genhdr (tmp ++ ".hash".toList))).place .qstr Directory.empty

/-- `cat` in `cat_qstr`. -/
def catQstrCommand (infPath dst : Text) : Command :=
  .catQstr (genhdrPath host infPath dst) (mpyDir host infPath) (fragmentDir host infPath .qstr)

theorem catQstr_leads (infPath dst : Text) {predefined : Text}
    (found : host.readText (qstrdefs host infPath) = some predefined) :
    Leads (catQstr tools host infPath dst) world
      (Spelled host [catQstrCommand host infPath dst] ∧
        Succeeds tools world (.cat .qstr (world.present .qstr)) ∧ (world.fragments .qstr).isSome) ⟨⟩
      (world.catQstr tools host dst predefined) := by
  have tmp := name_ne_suffixed dst (by decide : ".tmp".toList ≠ [])
  have hash := name_ne_suffixed (dst ++ ".tmp".toList) (by decide : ".hash".toList ≠ [])
  have apart := tmp_hash_ne dst
  let collected := world.output tools (.cat .qstr (world.present .qstr))
  let before := (world.cat tools .qstr (dst ++ ".tmp".toList)).write (.genhdr dst) []
  have opened : host.openText (qstrdefs host infPath) = .ok predefined := by rw [Host.openText, found]
  have opens : (ofExcept (host.openText (qstrdefs host infPath))).exec before = (.ok predefined, before) := by
    rw [exec_ofExcept, opened]
  have read : before.files (.genhdr (dst ++ ".tmp".toList)) = some collected := by
    simp only [before, World.cat, World.write_files, File.genhdr.injEq, tmp, hash.symm, ↓reduceIte, collected]
  let after := before.write (.genhdr dst)
    (textOut host (universalNewlines predefined ++ universalNewlines collected ++ ['\r', '\n'] ++ forcedQstr))
  have removable : after.files (.genhdr (dst ++ ".tmp".toList)) = some collected := by
    simp only [after, World.write_files, File.genhdr.injEq, tmp, ↓reduceIte]
    exact read
  have hashed : (after.remove (.genhdr (dst ++ ".tmp".toList))).files
      (.genhdr (dst ++ ".tmp".toList ++ ".hash".toList)) = some (tools.digest collected) := by
    simp only [after, before, World.cat, World.write_files, World.remove_files, File.genhdr.injEq, hash, apart,
      ↓reduceIte, collected]
  unfold World.catQstr
  dsimp only
  rw [← World.write_write _ (.genhdr dst) []]
  refine ((catFragments_leads tools host world _ .qstr _).bind fun _ => Leads.step rfl (Leads.step opens ?_)).congr and_assoc
  refine Leads.step (exec_readFile read) (Leads.step rfl (Leads.step (exec_osRemove removable) ?_))
  exact Leads.step (exec_osRemove hashed) (removeListed_leads .qstr)

def quoted (content : Text) : Text := textOut host (quoteEntries (universalNewlines content))

def unquoted (content : Text) : Text := textOut host (unquoteEntries (universalNewlines content))

def expanding (dst : Text) (incs : List Text) (option content : Text) : Invocation :=
  preprocessing host (.genhdr dst) incs option (some (quoted host content))

def World.expanded (dst : Text) (incs : List Text) (option content : Text) : Text :=
  unquoted host (world.output tools (expanding host dst incs option content))

def World.expand (file dst : Text) (incs : List Text) (option content : Text) : World :=
  (((world.write (.genhdr dst) (quoted host content)).after tools (expanding host dst incs option content)).write
    (.genhdr (dst ++ ".i".toList)) (world.expanded tools host dst incs option content)).write (.genhdr file) []

def World.genQstr (file dst : Text) (incs : List Text) (option content : Text) : World :=
  let before := world.expand tools host file dst incs option content
  let invocation := .makeqstrdata (some (world.expanded tools host dst incs option content))
  (((before.after tools invocation).write (.genhdr file) (before.output tools invocation)).remove (.genhdr dst)).remove
    (.genhdr (dst ++ ".i".toList))

def genQstrCommands (infPath dst : Text) (incs : List Text) (option : Text) : List Command :=
  let path := genhdrPath host infPath dst
  [.preprocess path (path ++ ".i".toList) incs option, .genQstr path (mpyDir host infPath)]

theorem genQstr_leads (infPath : Text) {file dst content : Text} (incs : List Text) (option : Text)
    (found : world.files (.genhdr dst) = some content) (other : file ≠ dst) (apart : file ≠ dst ++ ".i".toList) :
    Leads (genQstr tools host infPath file dst incs option) world
      (Spelled host (genQstrCommands host infPath dst incs option) ∧
        Succeeds tools world (expanding host dst incs option content) ∧
        Succeeds tools (world.expand tools host file dst incs option content)
          (.makeqstrdata (some (world.expanded tools host dst incs option content)))) ⟨⟩
      (world.genQstr tools host file dst incs option content) := by
  have pp := name_ne_suffixed dst (by decide : ".i".toList ≠ [])
  let first := world.write (.genhdr dst) (quoted host content)
  have reading : first.files (.genhdr dst) = some (quoted host content) := by
    simp only [first, World.write_files, ↓reduceIte]
  let path := genhdrPath host infPath dst
  have preprocessed := preprocess_leads tools host first path (path ++ ".i".toList) (.genhdr dst)
    (.genhdr (dst ++ ".i".toList)) incs option
  rw [reading] at preprocessed
  let out := world.output tools (expanding host dst incs option content)
  let second := (first.after tools (expanding host dst incs option content)).write (.genhdr (dst ++ ".i".toList)) out
  have written : second.files (.genhdr (dst ++ ".i".toList)) = some out := by
    simp only [second, World.write_files, ↓reduceIte]
  let third := world.expand tools host file dst incs option content
  let final := (third.after tools (.makeqstrdata (some (world.expanded tools host dst incs option content)))).write
    (.genhdr file) (third.output tools (.makeqstrdata (some (world.expanded tools host dst incs option content))))
  have input : third.files (.genhdr (dst ++ ".i".toList)) = some (world.expanded tools host dst incs option content) := by
    simp only [third, World.expand, World.write_files, File.genhdr.injEq, apart.symm, ↓reduceIte]
  have kept : final.files (.genhdr dst) = some (quoted host content) := by
    simp only [final, third, World.expand, World.write_files, World.after_files, File.genhdr.injEq, other.symm, pp.symm,
      ↓reduceIte]
  have restored : (final.remove (.genhdr dst)).files (.genhdr (dst ++ ".i".toList)) =
      some (world.expanded tools host dst incs option content) := by
    simp only [final, World.remove_files, World.write_files, World.after_files, File.genhdr.injEq, apart.symm, pp,
      ↓reduceIte]
    exact input
  refine Leads.step (exec_readFile found) (Leads.step rfl (spelled_bind preprocessed ?_))
  refine Leads.step (exec_readFile written) (Leads.step rfl (Leads.step rfl ?_))
  refine (splitCommand_leads _).bind fun _ => Leads.step rfl ?_
  have same : (second.write (.genhdr (dst ++ ".i".toList)) (unquoted host out)).write (.genhdr file) [] = third := by
    simp only [second, World.write_write]
    rfl
  change Leads (checkCall tools (.makeqstrdata (World.files ((second.write _ (unquoted host out)).write _ []) _)) >>= _)
    ((second.write _ (unquoted host out)).write _ []) _ _ _
  rw [same, input]
  refine (checkCall_leads _).finish fun _ => Leads.exec_eq (Leads.step rfl ?_) trivial
  exact Leads.step (exec_osRemove kept) (Leads.of_exec (exec_osRemove restored))

def World.preprocessed (incs : List Text) (option src : Text) : World :=
  let invocation := preprocessing host (.source src) incs option (world.files (.source src))
  (world.after tools invocation).write (.preprocessed src) (world.output tools invocation)

def World.collectSource (incs : List Text) (option src : Text) : World :=
  ((((world.preprocessed tools host incs option src).split tools .qstr src).split tools .module src).split tools
    .rootPointer src).remove (.preprocessed src)

def Splits (world : World) (mode : Mode) (src : Text) : Prop :=
  Succeeds tools world (.split mode src (world.files (.preprocessed src)))

def CollectsSource (incs : List Text) (option src : Text) (world : World) : Prop :=
  let first := world.preprocessed tools host incs option src
  let second := first.split tools .qstr src
  let third := second.split tools .module src
  Succeeds tools world (preprocessing host (.source src) incs option (world.files (.source src))) ∧
    Splits tools first .qstr src ∧ Splits tools second .module src ∧ Splits tools third .rootPointer src

/-- The command lines for one source. -/
def sourceCommands (infPath : Text) (incs : List Text) (option src : Text) : List Command :=
  let ppFile := src ++ ".i".toList
  [.preprocess src ppFile incs option, .collectQstr ppFile (mpyDir host infPath) (fragmentDir host infPath .qstr),
    .collectModules ppFile (mpyDir host infPath) (fragmentDir host infPath .module),
    .collectRootPointers ppFile (mpyDir host infPath) (fragmentDir host infPath .rootPointer)]

theorem collectSource_leads (infPath : Text) (incs : List Text) (option src : Text) :
    Leads (collectSource tools host infPath incs option src) world
      (Spelled host (sourceCommands host infPath incs option src) ∧ CollectsSource tools host incs option src world) ⟨⟩
      (world.collectSource tools host incs option src) := by
  refine spelled_bind (preprocess_leads tools host world _ _ _ _ incs option) ?_
  refine spelled_bind (splitFragment_leads tools host _ _ .qstr src) ?_
  refine spelled_bind (splitFragment_leads tools host _ _ .module src) ?_
  refine (splitFragment_leads tools host _ _ .rootPointer src).finish fun _ => ?_
  refine exec_osRemove (?_ : _ = some (world.output tools (preprocessing host (.source src) incs option
    (world.files (.source src)))))
  simp only [World.split, World.place_files, World.after_files, World.write_files, ↓reduceIte]

section Course

variable (plan : Plan) (predefined : Text)

/-! The worlds `main` passes through, from its first write on. -/

def World.prepared : World :=
  (((world.after tools .makeversionhdr).write (.genhdr "mpversion.h".toList) (world.output tools .makeversionhdr)).write
    (.genhdr qstrFile) []).place .qstr Directory.empty

def World.sourced : World :=
  plan.srcFiles.foldl (fun before src => before.collectSource tools host plan.incPaths plan.ccOptions src)
    (world.prepared tools)

def World.qstrsCollected : World := (world.sourced tools host plan).catQstr tools host collectedQstrFile predefined

def World.qstrText : Text :=
  let before := world.sourced tools host plan
  textOut host (universalNewlines predefined ++
    universalNewlines (before.output tools (.cat .qstr (before.present .qstr))) ++ ['\r', '\n'] ++ forcedQstr)

def World.qstrsGenerated : World :=
  (world.qstrsCollected tools host plan predefined).genQstr tools host qstrFile collectedQstrFile plan.incPaths
    plan.ccOptions (world.qstrText tools host plan predefined)

def World.catGenerate (mode : Mode) (program : Option Text → Invocation) (file : Text) : World :=
  let dst := file ++ ".tmp".toList
  let text := world.output tools (.cat mode (world.present mode))
  let before := ((world.cat tools mode dst).remove (.genhdr (dst ++ ".hash".toList))).place mode Directory.empty
  ((before.after tools (program (some text))).write (.genhdr file) (before.output tools (program (some text)))).remove
    (.genhdr dst)

def World.modulesGenerated : World :=
  (world.qstrsGenerated tools host plan predefined).catGenerate tools .module .makemoduledefs moduleFile

def World.produced : World :=
  (world.modulesGenerated tools host plan predefined).catGenerate tools .rootPointer .makeRootPointers rootPointerFile

/-- `cat` succeeds, and the directory it read is there to be emptied. -/
def Cats (world : World) (mode : Mode) : Prop :=
  Succeeds tools world (.cat mode (world.present mode)) ∧ (world.fragments mode).isSome

/-- The preprocessor and the generator of `gen_qstr` succeed. -/
def Expands (world : World) (text : Text) : Prop :=
  Succeeds tools world (expanding host collectedQstrFile plan.incPaths plan.ccOptions text) ∧
    Succeeds tools (world.expand tools host qstrFile collectedQstrFile plan.incPaths plan.ccOptions text)
      (.makeqstrdata (some (world.expanded tools host collectedQstrFile plan.incPaths plan.ccOptions text)))

/-- Every checked run of `main` succeeds, and no directory is missing. -/
def Produces : Prop :=
  Succeeds tools world .makeversionhdr ∧
    Leads.All (CollectsSource tools host plan.incPaths plan.ccOptions)
      (fun before src => before.collectSource tools host plan.incPaths plan.ccOptions src) plan.srcFiles
      (world.prepared tools) ∧
    Cats tools (world.sourced tools host plan) .qstr ∧
    Expands tools host plan (world.qstrsCollected tools host plan predefined) (world.qstrText tools host plan predefined) ∧
    Cats tools (world.qstrsGenerated tools host plan predefined) .module ∧
    Cats tools (world.modulesGenerated tools host plan predefined) .rootPointer

end Course

variable {tools host world}

def World.catted (tools : Tools) (world : World) (mode : Mode) (dst : Text) : World :=
  ((world.cat tools mode dst).remove (.genhdr (dst ++ ".hash".toList))).place mode Directory.empty

theorem generate_catted (command : Command) (mode : Mode) (program : Option Text → Invocation) (file : Text) :
    Leads (generate tools host command program file (file ++ ".tmp".toList))
      (world.catted tools mode (file ++ ".tmp".toList)) (Spelled host [command]) ⟨⟩
      (world.catGenerate tools mode program file) := by
  have hash := name_ne_suffixed (file ++ ".tmp".toList) (by decide : ".hash".toList ≠ [])
  have found : (world.catted tools mode (file ++ ".tmp".toList)).files (.genhdr (file ++ ".tmp".toList)) =
      some (world.output tools (.cat mode (world.present mode))) := by
    simp only [World.catted, World.place_files, World.remove_files, World.cat, World.write_files, File.genhdr.injEq,
      hash.symm, ↓reduceIte]
  exact generate_leads tools host _ command program found

theorem prepareQstrDir_exec : prepareQstrDir.exec world = (.ok ⟨⟩, world.place .qstr Directory.empty) := by
  cases found : world.fragments .qstr <;> simp [prepareQstrDir, exec_bind, found, makedirs, clearTree]

theorem World.catQstr_files {dst predefined : Text} :
    (world.catQstr tools host dst predefined).files (.genhdr dst) = some (textOut host (universalNewlines predefined ++
      universalNewlines (world.output tools (.cat .qstr (world.present .qstr))) ++ ['\r', '\n'] ++ forcedQstr)) := by
  have tmp := name_ne_suffixed dst (by decide : ".tmp".toList ≠ [])
  have apart := tmp_hash_ne dst
  simp only [World.catQstr, World.place_files, World.remove_files, World.write_files, File.genhdr.injEq, tmp.symm,
    apart.symm, ↓reduceIte]

theorem genVersion_leads (hdrFile : Text) :
    Leads (genVersion tools hdrFile) world (Succeeds tools world .makeversionhdr) ⟨⟩
      ((world.after tools .makeversionhdr).write (.genhdr hdrFile) (world.output tools .makeversionhdr)) :=
  (checkCall_leads _).finish fun _ => rfl

/-- The command lines of a run, in their order. -/
def commands (host : Host) (plan : Plan) : List Command :=
  plan.srcFiles.flatMap (sourceCommands host plan.infPath plan.incPaths plan.ccOptions) ++
    catQstrCommand host plan.infPath collectedQstrFile ::
    (genQstrCommands host plan.infPath collectedQstrFile plan.incPaths plan.ccOptions ++
      [.catModule (genhdrPath host plan.infPath collectedModuleFile) (mpyDir host plan.infPath)
          (fragmentDir host plan.infPath .module),
        .genModule (genhdrPath host plan.infPath collectedModuleFile) (mpyDir host plan.infPath),
        .catRootPointers (genhdrPath host plan.infPath collectedRpFile) (mpyDir host plan.infPath)
          (fragmentDir host plan.infPath .rootPointer),
        .genRootPointers (genhdrPath host plan.infPath collectedRpFile) (mpyDir host plan.infPath)])

theorem sources_leads (plan : Plan) :
    Leads (plan.srcFiles.forM (collectSource tools host plan.infPath plan.incPaths plan.ccOptions)) (world.prepared tools)
      (Spelled host (plan.srcFiles.flatMap (sourceCommands host plan.infPath plan.incPaths plan.ccOptions)) ∧
        Leads.All (CollectsSource tools host plan.incPaths plan.ccOptions)
          (fun before src => before.collectSource tools host plan.incPaths plan.ccOptions src) plan.srcFiles
          (world.prepared tools)) ⟨⟩ (world.sourced tools host plan) :=
  spelled_forM fun src before => collectSource_leads tools host before plan.infPath plan.incPaths plan.ccOptions src

theorem produce_leads {plan : Plan} {predefined : Text}
    (found : host.readText (qstrdefs host plan.infPath) = some predefined) :
    Leads (produce tools host plan) world
      (Spelled host (commands host plan) ∧ Produces tools host world plan predefined) ⟨⟩
      (world.produced tools host plan predefined) := by
  let collected := world.qstrsCollected tools host plan predefined
  have text : collected.files (.genhdr collectedQstrFile) = some (world.qstrText tools host plan predefined) :=
    World.catQstr_files
  have qstrs := catQstr_leads tools host (world.sourced tools host plan) plan.infPath collectedQstrFile found
  have generated := genQstr_leads tools host collected plan.infPath plan.incPaths plan.ccOptions text
    (by decide : qstrFile ≠ _) (by decide)
  have modules := catAndClear_leads tools host (world.qstrsGenerated tools host plan predefined) (.catModule
    (genhdrPath host plan.infPath collectedModuleFile) (mpyDir host plan.infPath) (fragmentDir host plan.infPath .module))
    .module collectedModuleFile
  have pointers := catAndClear_leads tools host (world.modulesGenerated tools host plan predefined) (.catRootPointers
    (genhdrPath host plan.infPath collectedRpFile) (mpyDir host plan.infPath) (fragmentDir host plan.infPath .rootPointer))
    .rootPointer collectedRpFile
  unfold produce Produces commands
  refine spelled_after (genVersion_leads _) (Leads.step rfl (Leads.step prepareQstrDir_exec ?_))
  refine spelled_bind (sources_leads plan) (spelled_bind qstrs (spelled_bind generated ?_))
  refine spelled_bind modules (spelled_first (generate_catted _ .module .makemoduledefs moduleFile) ?_)
  exact spelled_last pointers (generate_catted _ .rootPointer .makeRootPointers rootPointerFile)

theorem produce_missing {plan : Plan} (missing : host.readText (qstrdefs host plan.infPath) = none) :
    Raises (produce tools host plan) world := by
  have opens : ∀ before : World, (ofExcept (host.openText (qstrdefs host plan.infPath))).exec before =
      (.error .fileNotFound, before) := by
    intro before
    rw [exec_ofExcept, Host.openText, missing]
  have stops : Raises (catQstr tools host plan.infPath collectedQstrFile) (world.sourced tools host plan) := by
    refine Raises.later (catFragments_leads tools host _ _ .qstr _) fun _ => Raises.later (Leads.of_exec rfl) fun _ => ?_
    exact Raises.bind (Raises.of_exec (opens _)) _
  unfold produce
  refine Raises.later (genVersion_leads _) fun _ => Raises.later (Leads.of_exec rfl) fun _ => ?_
  exact Raises.later (Leads.of_exec prepareQstrDir_exec) fun _ => Raises.later (sources_leads plan) fun _ => stops.bind _

end SblPayload.Genhdr
