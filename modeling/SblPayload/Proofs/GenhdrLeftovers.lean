import SblPayload.Proofs.GenhdrStatus
import SblPayload.Library.Leftovers

/-! What an earlier run left behind reaches the headers of the next one through
the directories that are not made empty before the sources are split. -/

namespace SblPayload.Proofs.GenhdrLeftovers
open Library Text Script Genhdr GenhdrStatus Directory

/-- The same command does the same in every turn. -/
def Deterministic (tools : Tools) : Prop := ∀ turn other invocation, tools.run turn invocation = tools.run other invocation

/-- `cat` puts together all fragments that are there, in an order of its own. -/
def Concatenates (tools : Tools) : Prop := ∀ turn mode (fragments : Directory Text Char),
  ∃ order, fragments.entries.Perm order ∧ (tools.run turn (.cat mode fragments)).output = concat order

/-- Everything an earlier run can have left, next to the sources and in `genhdr`. -/
structure Remains where
  preprocessed : Text → Option Text
  genhdr : Text → Option Text
  fragments : Mode → Option (Directory Text Char)

def Remains.start (remains : Remains) (sources : Text → Option Text) : World where
  files
    | .source path => sources path
    | .preprocessed path => remains.preprocessed path
    | .genhdr name => remains.genhdr name
  fragments := remains.fragments
  runs := []

def headers (world : World) : List (Option Text) :=
  [qstrFile, moduleFile, rootPointerFile].map fun name => world.files (.genhdr name)

variable {tools : Tools} {host : Host} {world : World}

def out (tools : Tools) (invocation : Invocation) : Text := (tools.run 0 invocation).output

theorem output_eq (deterministic : Deterministic tools) (invocation : Invocation) :
    world.output tools invocation = out tools invocation := by
  rw [World.output, deterministic _ 0, out]

def fragment (tools : Tools) (host : Host) (incs : List Text) (option : Text) (sources : Text → Option Text) (mode : Mode)
    (src : Text) : Text :=
  out tools (.split mode src (some (out tools (preprocessing host (.source src) incs option (sources src)))))

section Sources

variable (deterministic : Deterministic tools) (incs : List Text) (option : Text)
include deterministic

theorem collectSource_present (mode : Mode) (src : Text) :
    (world.collectSource tools host incs option src).present mode =
      (world.present mode).insert (tools.fragmentName src)
        (fragment tools host incs option (fun path => world.files (.source path)) mode src) := by
  cases mode <;>
    simp [World.collectSource, World.split, World.preprocessed, output_eq deterministic, fragment]

theorem sources_present (sources : List Text) (start : World) (mode : Mode) :
    (sources.foldl (fun before src => before.collectSource tools host incs option src) start).present mode =
      (start.present mode).fill (sources.map fun src => (tools.fragmentName src,
        fragment tools host incs option (fun path => start.files (.source path)) mode src)) := by
  induction sources generalizing start with
  | nil => rfl
  | cons src sources ih =>
    have same : (fun path => (start.collectSource tools host incs option src).files (.source path)) =
        fun path => start.files (.source path) := by
      funext path
      simp [World.collectSource, World.split, World.preprocessed]
    rw [List.foldl_cons, ih, same, collectSource_present deterministic]
    rfl

end Sources

def qstrHeader (tools : Tools) (host : Host) (found : Plan) (predefined text : Text) : Text :=
  let all := textOut host (universalNewlines predefined ++ universalNewlines text ++ ['\r', '\n'] ++ forcedQstr)
  let expanded := out tools (expanding host collectedQstrFile found.incPaths found.ccOptions all)
  out tools (.makeqstrdata (some (unquoted host expanded)))

theorem catGenerate_files (mode : Mode) (program : Option Text → Invocation) (file other : Text)
    (apart : other ≠ file ∧ other ≠ file ++ ".tmp".toList ∧ other ≠ file ++ ".tmp".toList ++ ".hash".toList) :
    (world.catGenerate tools mode program file).files (.genhdr other) = world.files (.genhdr other) := by
  simp only [World.catGenerate, World.cat, World.remove_files, World.write_files, World.after_files, World.place_files,
    File.genhdr.injEq, apart.1, apart.2.1, apart.2.2, ↓reduceIte]

theorem catGenerate_header (deterministic : Deterministic tools) (mode : Mode) (program : Option Text → Invocation)
    (file : Text) : (world.catGenerate tools mode program file).files (.genhdr file) =
      some (out tools (program (some (out tools (.cat mode (world.present mode)))))) := by
  have apart := (name_ne_suffixed file (by decide : ".tmp".toList ≠ [])).symm
  simp only [World.catGenerate, World.remove_files, World.write_files, File.genhdr.injEq, apart, ↓reduceIte,
    output_eq deterministic]

theorem catGenerate_present (mode other : Mode) (program : Option Text → Invocation) (file : Text)
    (apart : other ≠ mode) : (world.catGenerate tools mode program file).present other = world.present other := by
  simp [World.catGenerate, World.cat, apart]

theorem qstrsGenerated_present (found : Plan) (predefined : Text) (mode : Mode) (apart : mode ≠ .qstr) :
    (world.qstrsGenerated tools host found predefined).present mode = (world.sourced tools host found).present mode := by
  unfold World.present
  rw [qstrsGenerated_fragments _ _ _ apart]

/-- The text `cat` makes of the fragments that are there before any `cat`. -/
def catted (tools : Tools) (host : Host) (found : Plan) (world : World) (mode : Mode) : Text :=
  out tools (.cat mode ((world.sourced tools host found).present mode))

theorem qstrsGenerated_header (deterministic : Deterministic tools) (found : Plan) (predefined : Text) :
    (world.qstrsGenerated tools host found predefined).files (.genhdr qstrFile) =
      some (qstrHeader tools host found predefined (catted tools host found world .qstr)) := by
  have other : qstrFile ≠ collectedQstrFile := by decide
  have apart : qstrFile ≠ collectedQstrFile ++ ".i".toList := by decide
  simp only [World.qstrsGenerated, World.genQstr, World.remove_files, World.write_files, File.genhdr.injEq, other, apart,
    ↓reduceIte, output_eq deterministic, World.expanded, World.qstrText, qstrHeader, catted]

theorem produced_headers (deterministic : Deterministic tools) (found : Plan) (predefined : Text) :
    headers (world.produced tools host found predefined) =
      [some (qstrHeader tools host found predefined (catted tools host found world .qstr)),
        some (out tools (.makemoduledefs (some (catted tools host found world .module)))),
        some (out tools (.makeRootPointers (some (catted tools host found world .rootPointer))))] := by
  have qstr : (world.produced tools host found predefined).files (.genhdr qstrFile) =
      (world.qstrsGenerated tools host found predefined).files (.genhdr qstrFile) := by
    rw [World.produced, catGenerate_files _ _ _ _ (by decide), World.modulesGenerated, catGenerate_files _ _ _ _ (by decide)]
  have modules : (world.produced tools host found predefined).files (.genhdr moduleFile) =
      (world.modulesGenerated tools host found predefined).files (.genhdr moduleFile) := by
    rw [World.produced, catGenerate_files _ _ _ _ (by decide)]
  have pointers : (world.modulesGenerated tools host found predefined).present .rootPointer =
      (world.sourced tools host found).present .rootPointer := by
    rw [World.modulesGenerated, catGenerate_present _ _ _ _ (by decide), qstrsGenerated_present _ _ _ (by decide)]
  simp only [headers, List.map_cons, List.map_nil, qstr, modules, qstrsGenerated_header deterministic]
  rw [World.modulesGenerated, catGenerate_header deterministic, qstrsGenerated_present _ _ _ (by decide), World.produced,
    catGenerate_header deterministic, pointers]
  rfl

theorem sourced_fill (deterministic : Deterministic tools) (remains : Remains) (sources : Text → Option Text)
    (found : Plan) (mode : Mode) : ((remains.start sources).sourced tools host found).present mode =
      ((if mode = .qstr then Directory.empty else (remains.start sources).present mode)).fill
        (found.srcFiles.map fun src => (tools.fragmentName src,
          fragment tools host found.incPaths found.ccOptions sources mode src)) := by
  rw [World.sourced, sources_present deterministic]
  cases mode <;> simp [World.prepared, Remains.start]

/-- Whatever the tools do, two completed runs that start with these remains
produce the same headers. -/
def Independent (host : Host) (args : Args) (fragmentName : Text → Text) (sources : Text → Option Text)
    (first second : Remains) : Prop :=
  ∀ tools, tools.fragmentName = fragmentName → Deterministic tools → Concatenates tools → ∀ one other,
    (main tools host args).exec (first.start sources) = (.ok ⟨⟩, one) →
    (main tools host args).exec (second.start sources) = (.ok ⟨⟩, other) → headers one = headers other

/-- The directories of the modules and of the root pointers hide what is in them
besides the fragments of the listed sources. -/
def RemainsAgree (host : Host) (args : Args) (fragmentName : Text → Text) (sources : Text → Option Text)
    (first second : Remains) : Prop :=
  ∀ found predefined, plan host args = .ok found → host.readText (qstrdefs host found.infPath) = some predefined →
    Spelled host (commands host found) → Present found (first.start sources) → Present found (second.start sources) →
    ∀ mode, mode ≠ .qstr →
    Hidden (found.srcFiles.map fragmentName) ((first.start sources).present mode) ((second.start sources).present mode)

theorem catted_of_alike (concatenates : Concatenates tools) {mode : Mode}
    {first second : Directory Text Char} (alike : Alike first second) :
    out tools (.cat mode first) = out tools (.cat mode second) := by
  rcases alike with rfl | same
  · rfl
  · obtain ⟨order, perm, text⟩ := concatenates 0 mode first
    obtain ⟨order', perm', text'⟩ := concatenates 0 mode second
    rw [out, out, text, text', same order order' perm perm']

section Agreement

variable {args : Args} {fragmentName : Text → Text} {sources : Text → Option Text} {first second : Remains}

theorem independent_of_agree (agree : RemainsAgree host args fragmentName sources first second) :
    Independent host args fragmentName sources first second := by
  intro tools named deterministic concatenates one other ended finished
  obtain ⟨found, predefined, planned, read, spelled, good, rfl⟩ := main_ended ended
  obtain ⟨found', predefined', planned', read', _, good', rfl⟩ := main_ended finished
  obtain rfl : found = found' := Except.ok.inj (planned.symm.trans planned')
  obtain rfl : predefined = predefined' := Option.some.inj (read.symm.trans read')
  have hidden := agree found predefined planned read spelled (produces_present _ _ good) (produces_present _ _ good')
  have text : ∀ mode, catted tools host found (first.start sources) mode =
      catted tools host found (second.start sources) mode := by
    intro mode
    refine catted_of_alike concatenates ?_
    rw [sourced_fill deterministic, sourced_fill deterministic]
    by_cases qstr : mode = .qstr
    · rw [if_pos qstr, if_pos qstr]
      exact Or.inl rfl
    · rw [if_neg qstr, if_neg qstr]
      refine (hidden mode qstr).alike fun name => ?_
      simp [named]
  rw [produced_headers deterministic, produced_headers deterministic, text, text, text]

/-- Tools that pass their input on, but for the preprocessor and `cat`: the text of a
source is any text, chosen by the name of its fragment, and the fragments are listed in
any order. -/
def copying (list : Directory Text Char → List (Text × Text)) (fragmentName : Text → Text) (contents : Text → Text) :
    Tools where
  run _ invocation := ⟨0, match invocation with
    | .makeversionhdr => []
    | .preprocessor _ (.source src) _ => contents (fragmentName src)
    | .preprocessor _ _ input => input.getD []
    | .split _ _ input => input.getD []
    | .cat _ fragments => concat (list fragments)
    | .makeqstrdata input => input.getD []
    | .makemoduledefs input => input.getD []
    | .makeRootPointers input => input.getD []⟩
  fragmentName := fragmentName
  digest := id

theorem copying_catted (list : Directory Text Char → List (Text × Text)) (contents : Text → Text) (remains : Remains)
    (found : Plan) (mode : Mode) (apart : mode ≠ .qstr) :
    catted (copying list fragmentName contents) host found (remains.start sources) mode =
      concat (list (((remains.start sources).present mode).fill
        (written (found.srcFiles.map fragmentName) contents))) := by
  rw [catted, sourced_fill (fun _ _ _ => rfl), if_neg apart, written, List.map_map]
  rfl

theorem agree_of_independent (independent : Independent host args fragmentName sources first second) :
    RemainsAgree host args fragmentName sources first second := by
  intro found predefined planned read spelled present present' mode apart
  have distinct : Nontrivial Char := ⟨'a', 'b', by decide⟩
  refine hidden_iff.mp fun contents => alike_iff.mp fun list lists => ?_
  let tools := copying list fragmentName contents
  have deterministic : Deterministic tools := fun _ _ _ => rfl
  have concatenates : Concatenates tools := fun _ _ fragments => ⟨list fragments, lists fragments, rfl⟩
  have assigned : Assigns tools fun _ => 0 := fun _ _ => rfl
  have same := independent tools rfl deterministic concatenates _ _
    (main_returns assigned rfl planned read spelled present fun _ _ => rfl)
    (main_returns assigned rfl planned read spelled present' fun _ _ => rfl)
  rw [produced_headers deterministic, produced_headers deterministic] at same
  injection same with _ rest
  injection rest with modules rest
  injection rest with pointers _
  rw [← copying_catted _ _ _ _ _ apart, ← copying_catted _ _ _ _ _ apart]
  cases mode with
  | qstr => exact absurd rfl apart
  | module => exact Option.some.inj modules
  | rootPointer => exact Option.some.inj pointers

/-- The headers do not depend on what an earlier run left exactly when the two
directories that are not made empty hide it. -/
theorem remains_hidden_iff (host : Host) (args : Args) (fragmentName : Text → Text) (sources : Text → Option Text)
    (first second : Remains) :
    Independent host args fragmentName sources first second ↔ RemainsAgree host args fragmentName sources first second :=
  ⟨agree_of_independent, independent_of_agree⟩

end Agreement

def listing (lines : Text) : Host where
  os := Posix.os
  PACKAGES_PATH := some "/w".toList
  WORKSPACE := none
  abspath := id
  pathExists := fun _ => true
  readText := fun path => some (if path = "/w/M.inf".toList then "[Sources]\n".toList ++ lines else [])

def brokenB : Tools where
  run turn invocation := match invocation with
    | .preprocessor _ (.source ['/', 'w', '/', 'b', '.', 'c']) _ => ⟨1, []⟩
    | other => (copying Directory.entries id id).run turn other
  fragmentName := id
  digest := id

def clean : Remains := ⟨fun _ => none, fun _ => none, fun _ => none⟩

def stopped : Remains :=
  let world := ((main brokenB (listing "a.c\nb.c\n".toList) ⟨"/w/M.inf".toList, "X64".toList⟩).exec
    (clean.start fun _ => none)).2
  ⟨fun path => world.files (.preprocessed path), fun name => world.files (.genhdr name), world.fragments⟩

def nextRun (remains : Remains) : Except PyError PUnit × World :=
  (main brokenB (listing "c.c\n".toList) ⟨"/w/M.inf".toList, "X64".toList⟩).exec (remains.start fun _ => none)

theorem nextRun_ends {remains : Remains} (ended : (nextRun remains).1 = .ok ⟨⟩) :
    nextRun remains = (.ok ⟨⟩, (nextRun remains).2) := by
  rw [← ended]

/-- The fragment of `a.c` is still there, and goes into the headers. -/
theorem fragment_of_stopped_run :
    ¬ Independent (listing "c.c\n".toList) ⟨"/w/M.inf".toList, "X64".toList⟩ id (fun _ => none) clean stopped := by
  intro independent
  have deterministic : Deterministic brokenB := fun _ _ _ => rfl
  have concatenates : Concatenates brokenB := fun _ _ fragments => ⟨fragments.entries, List.Perm.refl _, rfl⟩
  have ended : (nextRun clean).1 = .ok ⟨⟩ := by decide +kernel
  have finished : (nextRun stopped).1 = .ok ⟨⟩ := by decide +kernel
  have same := independent brokenB rfl deterministic concatenates _ _ (nextRun_ends ended) (nextRun_ends finished)
  have differ : headers (nextRun clean).2 ≠ headers (nextRun stopped).2 := by decide +kernel
  exact differ same

end SblPayload.Proofs.GenhdrLeftovers
