import SblPayload.Proofs.GenhdrConfined
import SblPayload.Proofs.GenhdrLeftovers

/-! What a completed run of `genhdr.py` leaves, and what the next one makes of it:
the headers are there and nothing is left of the work on them, so that running the
script again changes no file. -/

namespace SblPayload.Proofs.GenhdrAgain
open Library Text Script Genhdr GenhdrStatus GenhdrLeftovers GenhdrConfined

variable {tools : Tools} {host : Host} {world other : World}

structure Finished (listed : List Text) (before after : World) : Prop where
  headers : ∀ name ∈ headerFiles, (after.files (.genhdr name)).isSome
  temporaries : ∀ name ∈ temporaries, after.files (.genhdr name) = none
  preprocessed : ∀ path ∈ listed, after.files (.preprocessed path) = none
  others : ∀ file, ¬ Own listed file → after.files file = before.files file
  fragments : ∀ mode, after.fragments mode = some Directory.empty

section Stages

variable (mode : Mode) (program : Option Text → Invocation) (file dst predefined option content : Text) (incs : List Text)

theorem catGenerate_gone : (world.catGenerate tools mode program file).files (.genhdr (file ++ ".tmp".toList)) = none ∧
    (world.catGenerate tools mode program file).files (.genhdr (file ++ ".tmp".toList ++ ".hash".toList)) = none := by
  have hash := name_ne_suffixed (file ++ ".tmp".toList) (by decide : ".hash".toList ≠ [])
  have apart := tmp_hash_ne file
  constructor
  · simp only [World.catGenerate, World.remove_files, ↓reduceIte]
  · simp only [World.catGenerate, World.remove_files, World.write_files, World.after_files, World.place_files,
      File.genhdr.injEq, hash, apart, ↓reduceIte]

theorem catGenerate_written : ((world.catGenerate tools mode program file).files (.genhdr file)).isSome := by
  have apart := (name_ne_suffixed file (by decide : ".tmp".toList ≠ [])).symm
  simp only [World.catGenerate, World.remove_files, World.write_files, File.genhdr.injEq, apart, ↓reduceIte,
    Option.isSome_some]

theorem genQstr_gone : (world.genQstr tools host file dst incs option content).files (.genhdr dst) = none ∧
    (world.genQstr tools host file dst incs option content).files (.genhdr (dst ++ ".i".toList)) = none := by
  have expanded := (name_ne_suffixed dst (by decide : ".i".toList ≠ [])).symm
  constructor
  · simp only [World.genQstr, World.remove_files, File.genhdr.injEq, expanded, ↓reduceIte]
  · simp only [World.genQstr, World.remove_files, ↓reduceIte]

theorem genQstr_written (apart : file ≠ dst) (expanded : file ≠ dst ++ ".i".toList) :
    ((world.genQstr tools host file dst incs option content).files (.genhdr file)).isSome := by
  simp only [World.genQstr, World.remove_files, World.write_files, File.genhdr.injEq, apart, expanded, ↓reduceIte,
    Option.isSome_some]

theorem genQstr_files {name : Text} (apart : name ≠ file ∧ name ≠ dst ∧ name ≠ dst ++ ".i".toList) :
    (world.genQstr tools host file dst incs option content).files (.genhdr name) = world.files (.genhdr name) := by
  simp only [World.genQstr, World.expand, World.remove_files, World.write_files, World.after_files, File.genhdr.injEq,
    apart.1, apart.2.1, apart.2.2, ↓reduceIte]

theorem catQstr_gone : (world.catQstr tools host dst predefined).files (.genhdr (dst ++ ".tmp".toList)) = none ∧
    (world.catQstr tools host dst predefined).files (.genhdr (dst ++ ".tmp".toList ++ ".hash".toList)) = none := by
  constructor <;> simp only [World.catQstr, World.place_files, World.remove_files, ↓reduceIte, ite_self]

theorem catQstr_kept {name : Text}
    (apart : name ≠ dst ∧ name ≠ dst ++ ".tmp".toList ∧ name ≠ dst ++ ".tmp".toList ++ ".hash".toList) :
    (world.catQstr tools host dst predefined).files (.genhdr name) = world.files (.genhdr name) := by
  simp only [World.catQstr, World.cat, World.place_files, World.remove_files, World.write_files, World.after_files,
    File.genhdr.injEq, apart.1, apart.2.1, apart.2.2, ↓reduceIte]

theorem sources_genhdr (sources : List Text) (name : Text) :
    (sources.foldl (fun before src => before.collectSource tools host incs option src) world).files (.genhdr name) =
      world.files (.genhdr name) := by
  induction sources generalizing world with
  | nil => rfl
  | cons src sources ih =>
    rw [List.foldl_cons, ih]
    simp [World.collectSource, World.split, World.preprocessed]

/-- The preprocessed text of a source is removed at the end of its turn. -/
theorem sources_preprocessed (sources : List Text) (path : Text) :
    (sources.foldl (fun before src => before.collectSource tools host incs option src) world).files (.preprocessed path) =
      if path ∈ sources then none else world.files (.preprocessed path) := by
  induction sources generalizing world with
  | nil => rfl
  | cons src sources ih =>
    rw [List.foldl_cons, ih]
    by_cases later : path ∈ sources
    · rw [if_pos later, if_pos (List.mem_cons_of_mem src later)]
    · by_cases same : path = src <;> simp [World.collectSource, World.split, World.preprocessed, later, same]

end Stages

section Course

variable (plan : Plan) (predefined : Text)

theorem produced_later {name : Text}
    (modules : name ≠ moduleFile ∧ name ≠ collectedModuleFile ∧ name ≠ collectedModuleFile ++ ".hash".toList)
    (pointers : name ≠ rootPointerFile ∧ name ≠ collectedRpFile ∧ name ≠ collectedRpFile ++ ".hash".toList) :
    (world.produced tools host plan predefined).files (.genhdr name) =
      (world.qstrsGenerated tools host plan predefined).files (.genhdr name) := by
  rw [World.produced, catGenerate_files _ _ _ _ pointers, World.modulesGenerated, catGenerate_files _ _ _ _ modules]

theorem produced_modules {name : Text}
    (pointers : name ≠ rootPointerFile ∧ name ≠ collectedRpFile ∧ name ≠ collectedRpFile ++ ".hash".toList) :
    (world.produced tools host plan predefined).files (.genhdr name) =
      (world.modulesGenerated tools host plan predefined).files (.genhdr name) := by
  rw [World.produced, catGenerate_files _ _ _ _ pointers]

theorem qstrsGenerated_kept {name : Text}
    (apart : name ≠ qstrFile ∧ name ≠ collectedQstrFile ∧ name ≠ collectedQstrFile ++ ".i".toList) :
    (world.qstrsGenerated tools host plan predefined).files (.genhdr name) =
      (world.qstrsCollected tools host plan predefined).files (.genhdr name) :=
  genQstr_files _ _ _ _ _ apart

theorem produced_version : ((world.produced tools host plan predefined).files (.genhdr "mpversion.h".toList)).isSome := by
  rw [produced_later _ _ (by decide) (by decide), qstrsGenerated_kept _ _ (by decide), World.qstrsCollected,
    catQstr_kept _ _ (by decide), World.sourced, sources_genhdr]
  rfl

theorem produced_headerFiles : ∀ name ∈ headerFiles,
    ((world.produced tools host plan predefined).files (.genhdr name)).isSome := by
  intro name member
  simp only [headerFiles, List.mem_cons, List.not_mem_nil, or_false] at member
  rcases member with rfl | rfl | rfl | rfl
  · exact produced_version plan predefined
  · rw [produced_later _ _ (by decide) (by decide)]
    exact genQstr_written _ _ _ _ _ (by decide) (by decide)
  · rw [produced_modules _ _ (by decide)]
    exact catGenerate_written .module _ _
  · exact catGenerate_written .rootPointer _ _

theorem produced_temporaries : ∀ name ∈ temporaries,
    (world.produced tools host plan predefined).files (.genhdr name) = none := by
  have qstrs := @genQstr_gone tools host (world.qstrsCollected tools host plan predefined) qstrFile collectedQstrFile
    plan.ccOptions (world.qstrText tools host plan predefined) plan.incPaths
  have collected := @catQstr_gone tools host (world.sourced tools host plan) collectedQstrFile predefined
  have modules := @catGenerate_gone tools (world.qstrsGenerated tools host plan predefined) .module .makemoduledefs
    moduleFile
  have pointers := @catGenerate_gone tools (world.modulesGenerated tools host plan predefined) .rootPointer
    .makeRootPointers rootPointerFile
  intro name member
  simp only [temporaries, List.mem_cons, List.not_mem_nil, or_false] at member
  rcases member with rfl | rfl | rfl | rfl | rfl | rfl | rfl | rfl
  · rw [produced_later _ _ (by decide) (by decide)]
    exact qstrs.1
  · rw [produced_later _ _ (by decide) (by decide)]
    exact qstrs.2
  · rw [produced_later _ _ (by decide) (by decide), qstrsGenerated_kept _ _ (by decide)]
    exact collected.1
  · rw [produced_later _ _ (by decide) (by decide), qstrsGenerated_kept _ _ (by decide)]
    exact collected.2
  · rw [produced_modules _ _ (by decide)]
    exact modules.1
  · rw [produced_modules _ _ (by decide)]
    exact modules.2
  · exact pointers.1
  · exact pointers.2

theorem produced_preprocessed : ∀ path ∈ plan.srcFiles,
    (world.produced tools host plan predefined).files (.preprocessed path) = none := by
  intro path member
  have gone := @sources_preprocessed tools host (world.prepared tools) plan.ccOptions plan.incPaths plan.srcFiles path
  rw [if_pos member] at gone
  simpa [World.produced, World.modulesGenerated, World.catGenerate, World.cat, World.qstrsGenerated, World.genQstr,
    World.expand, World.qstrsCollected, World.catQstr, World.sourced] using gone

theorem produced_fragments (mode : Mode) :
    (world.produced tools host plan predefined).fragments mode = some Directory.empty := by
  cases mode <;>
    simp [World.produced, World.modulesGenerated, World.catGenerate, World.cat, World.qstrsGenerated, World.genQstr,
      World.expand, World.qstrsCollected, World.catQstr]

end Course

variable {args : Args}

theorem produced_others {found : Plan} {predefined : Text}
    (read : host.readText (qstrdefs host found.infPath) = some predefined) (spelled : Spelled host (commands host found))
    (produces : Produces tools host world found predefined) {file : File} (foreign : ¬ Own found.srcFiles file) :
    (world.produced tools host found predefined).files file = world.files file := by
  have stays := @produce_stays tools host found world
  rw [(produce_leads read).exec_eq ⟨spelled, produces⟩] at stays
  exact stays.files file foreign

def firstRun : Except PyError PUnit × World :=
  (main (copying Directory.entries id id) (listing "a.c\nb.c\n".toList) ⟨"/w/M.inf".toList, "X64".toList⟩).exec
    (clean.start fun _ => none)

theorem firstRun_ends : firstRun = (.ok ⟨⟩, firstRun.2) := by
  have ended : firstRun.1 = .ok ⟨⟩ := by decide +kernel
  rw [← ended]

/-- Two worlds that agree on the files known so far and on all fragments. -/
structure Alike (known : File → Prop) (world other : World) : Prop where
  files : ∀ file, known file → world.files file = other.files file
  present : ∀ mode, world.present mode = other.present mode

abbrev Also (file : File) (known : File → Prop) (candidate : File) : Prop := candidate = file ∨ known candidate

namespace Alike

variable {known : File → Prop}

theorem mono {fewer : File → Prop} (alike : Alike known world other) (less : ∀ file, fewer file → known file) :
    Alike fewer world other := ⟨fun file held => alike.files file (less file held), alike.present⟩

theorem after (alike : Alike known world other) (first second : Invocation) :
    Alike known (world.after tools first) (other.after tools second) := ⟨alike.files, alike.present⟩

theorem write (alike : Alike known world other) (file : File) {text same : Text} (equal : text = same) :
    Alike (Also file known) (world.write file text) (other.write file same) := by
  refine ⟨fun candidate either => ?_, alike.present⟩
  rw [World.write_files, World.write_files, equal]
  split
  next => rfl
  next different => exact alike.files candidate (either.resolve_left different)

theorem remove (alike : Alike known world other) (file : File) :
    Alike (Also file known) (world.remove file) (other.remove file) := by
  refine ⟨fun candidate either => ?_, alike.present⟩
  rw [World.remove_files, World.remove_files]
  split
  next => rfl
  next different => exact alike.files candidate (either.resolve_left different)

theorem place (alike : Alike known world other) (mode : Mode) {fragments same : Directory Text Char}
    (equal : fragments = same) : Alike known (world.place mode fragments) (other.place mode same) := by
  refine ⟨alike.files, fun candidate => ?_⟩
  rw [World.place_present, World.place_present, equal, alike.present]

end Alike

theorem succeeds_iff (deterministic : Deterministic tools) (invocation : Invocation) :
    Succeeds tools world invocation ↔ Succeeds tools other invocation := by
  unfold Succeeds
  rw [deterministic world.runs.length other.runs.length]

theorem output_same (deterministic : Deterministic tools) (invocation : Invocation) :
    world.output tools invocation = other.output tools invocation := by
  rw [output_eq deterministic, output_eq deterministic]

section Together

variable {known : File → Prop} (deterministic : Deterministic tools) (alike : Alike known world other)
include deterministic alike

/-- The same program on the same input writes the same file. -/
theorem alike_ran (file : File) {first second : Invocation} (same : first = second) :
    Alike (Also file known) ((world.after tools first).write file (world.output tools first))
      ((other.after tools second).write file (other.output tools second)) := by
  subst same
  exact (alike.after first first).write file (output_same deterministic first)

theorem alike_preprocessed {src : Text} (source : known (.source src)) (incs : List Text) (option : Text) :
    Alike (Also (.preprocessed src) known) (world.preprocessed tools host incs option src)
      (other.preprocessed tools host incs option src) := by
  apply alike_ran deterministic alike
  rw [alike.files _ source]

theorem alike_split {src : Text} (preprocessed : known (.preprocessed src)) (mode : Mode) :
    Alike known (world.split tools mode src) (other.split tools mode src) := by
  apply (alike.after _ _).place
  rw [alike.files _ preprocessed, alike.present, output_same deterministic]

theorem splits_iff {src : Text} (preprocessed : known (.preprocessed src)) (mode : Mode) :
    Splits tools world mode src ↔ Splits tools other mode src := by
  unfold Splits
  rw [alike.files _ preprocessed]
  exact succeeds_iff deterministic _

theorem alike_collectSource {src : Text} (source : known (.source src)) (incs : List Text) (option : Text) :
    Alike (Also (.preprocessed src) known) (world.collectSource tools host incs option src)
      (other.collectSource tools host incs option src) := by
  have here : Also (.preprocessed src) known (.preprocessed src) := Or.inl rfl
  have first := @alike_preprocessed tools host _ _ _ deterministic alike src source incs option
  have second := alike_split deterministic first here .qstr
  have third := alike_split deterministic second here .module
  have fourth := alike_split deterministic third here .rootPointer
  exact (fourth.remove (.preprocessed src)).mono fun file held => Or.inr held

theorem collectsSource_same {src : Text} (source : known (.source src)) (incs : List Text) (option : Text) :
    CollectsSource tools host incs option src world ↔ CollectsSource tools host incs option src other := by
  have here : Also (.preprocessed src) known (.preprocessed src) := Or.inl rfl
  have first := @alike_preprocessed tools host _ _ _ deterministic alike src source incs option
  have second := alike_split deterministic first here .qstr
  have third := alike_split deterministic second here .module
  unfold CollectsSource
  rw [alike.files _ source]
  apply and_congr (succeeds_iff deterministic _)
  apply and_congr (splits_iff deterministic first here .qstr)
  exact and_congr (splits_iff deterministic second here .module) (splits_iff deterministic third here .rootPointer)

omit alike in
theorem sources_same {sources : List Text} (listed : ∀ src ∈ sources, known (.source src)) (incs : List Text)
    (option : Text) {start again : World} (alike : Alike known start again) :
    Alike (fun file => (∃ src ∈ sources, file = .preprocessed src) ∨ known file)
        (sources.foldl (fun before src => before.collectSource tools host incs option src) start)
        (sources.foldl (fun before src => before.collectSource tools host incs option src) again) ∧
      (Leads.All (CollectsSource tools host incs option)
          (fun before src => before.collectSource tools host incs option src) sources start ↔
        Leads.All (CollectsSource tools host incs option)
          (fun before src => before.collectSource tools host incs option src) sources again) := by
  induction sources generalizing start again known with
  | nil => exact ⟨alike.mono fun file held => held.resolve_left (by simp), Iff.rfl⟩
  | cons src sources ih =>
    have source := listed src List.mem_cons_self
    have turn := @alike_collectSource tools host _ _ _ deterministic alike src source incs option
    obtain ⟨files, all⟩ := ih (fun path member => Or.inr (listed path (List.mem_cons_of_mem src member))) turn
    refine ⟨files.mono ?_, and_congr (collectsSource_same deterministic alike source incs option) all⟩
    rintro file (⟨path, member, rfl⟩ | held)
    · rcases List.mem_cons.mp member with rfl | later
      · exact Or.inr (Or.inl rfl)
      · exact Or.inl ⟨path, later, rfl⟩
    · exact Or.inr (Or.inr held)

theorem alike_cat (mode : Mode) (dst : Text) :
    Alike (Also (.genhdr (dst ++ ".hash".toList)) (Also (.genhdr dst) known)) (world.cat tools mode dst)
      (other.cat tools mode dst) := by
  have same : world.output tools (.cat mode (world.present mode)) = other.output tools (.cat mode (other.present mode)) := by
    rw [alike.present, output_same deterministic]
  exact ((alike.after _ _).write _ same).write _ (congrArg tools.digest same)

theorem cat_same (mode : Mode) :
    Succeeds tools world (.cat mode (world.present mode)) ↔ Succeeds tools other (.cat mode (other.present mode)) := by
  rw [alike.present]
  exact succeeds_iff deterministic _

theorem alike_catQstr (dst predefined : Text) :
    Alike (fun file => file = .genhdr (dst ++ ".tmp".toList ++ ".hash".toList) ∨ file = .genhdr (dst ++ ".tmp".toList) ∨
        file = .genhdr dst ∨ known file)
      (world.catQstr tools host dst predefined) (other.catQstr tools host dst predefined) := by
  have text : world.output tools (.cat .qstr (world.present .qstr)) = other.output tools (.cat .qstr (other.present .qstr)) := by
    rw [alike.present, output_same deterministic]
  have written := (alike_cat deterministic alike .qstr (dst ++ ".tmp".toList)).write (.genhdr dst)
    (congrArg (fun text => textOut host (universalNewlines predefined ++ universalNewlines text ++ ['\r', '\n'] ++
      forcedQstr)) text)
  refine (((written.remove _).remove _).place .qstr rfl).mono ?_
  rintro file (rfl | rfl | rfl | held)
  · exact Or.inl rfl
  · exact Or.inr (Or.inl rfl)
  · exact Or.inr (Or.inr (Or.inl rfl))
  · exact Or.inr (Or.inr (Or.inr (Or.inr (Or.inr held))))

theorem alike_expand (file dst : Text) (incs : List Text) (option content : Text) :
    Alike (Also (.genhdr file) (Also (.genhdr (dst ++ ".i".toList)) (Also (.genhdr dst) known)))
      (world.expand tools host file dst incs option content) (other.expand tools host file dst incs option content) := by
  have same : world.expanded tools host dst incs option content = other.expanded tools host dst incs option content :=
    congrArg (unquoted host) (output_same deterministic _)
  exact (((alike.write _ rfl).after _ _).write _ same).write _ rfl

theorem alike_genQstr (file dst : Text) (incs : List Text) (option content : Text) :
    Alike (fun candidate => candidate = .genhdr (dst ++ ".i".toList) ∨ candidate = .genhdr dst ∨ candidate = .genhdr file ∨
        known candidate)
      (world.genQstr tools host file dst incs option content) (other.genQstr tools host file dst incs option content) := by
  have same : world.expanded tools host dst incs option content = other.expanded tools host dst incs option content :=
    congrArg (unquoted host) (output_same deterministic _)
  have expanded := @alike_expand tools host _ _ _ deterministic alike file dst incs option content
  have written := alike_ran deterministic expanded (.genhdr file)
    (congrArg (fun text => Invocation.makeqstrdata (some text)) same)
  have done := (written.remove (.genhdr dst)).remove (.genhdr (dst ++ ".i".toList))
  refine done.mono ?_
  rintro candidate (rfl | rfl | rfl | held)
  · exact Or.inl rfl
  · exact Or.inr (Or.inl rfl)
  · exact Or.inr (Or.inr (Or.inl rfl))
  · exact Or.inr (Or.inr (Or.inr (Or.inr (Or.inr (Or.inr held)))))

theorem alike_catGenerate (mode : Mode) (program : Option Text → Invocation) (file : Text) :
    Alike (fun candidate => candidate = .genhdr (file ++ ".tmp".toList) ∨ candidate = .genhdr file ∨
        candidate = .genhdr (file ++ ".tmp".toList ++ ".hash".toList) ∨ known candidate)
      (world.catGenerate tools mode program file) (other.catGenerate tools mode program file) := by
  have text : world.output tools (.cat mode (world.present mode)) = other.output tools (.cat mode (other.present mode)) := by
    rw [alike.present, output_same deterministic]
  have catted := ((alike_cat deterministic alike mode (file ++ ".tmp".toList)).remove
    (.genhdr (file ++ ".tmp".toList ++ ".hash".toList))).place mode (rfl : Directory.empty = Directory.empty)
  have written := alike_ran deterministic catted (.genhdr file) (congrArg (fun text => program (some text)) text)
  have done := written.remove (.genhdr (file ++ ".tmp".toList))
  refine done.mono ?_
  rintro candidate (rfl | rfl | rfl | held)
  · exact Or.inl rfl
  · exact Or.inr (Or.inl rfl)
  · exact Or.inr (Or.inr (Or.inl rfl))
  · exact Or.inr (Or.inr (Or.inr (Or.inr (Or.inr held))))

end Together

section Later

variable {known : File → Prop} (deterministic : Deterministic tools) (plan : Plan) (listed : List Text) (predefined : Text)
  (alike : Alike known (world.sourced tools host plan) (other.sourced tools host { plan with srcFiles := listed }))
include deterministic alike

theorem qstrText_same : world.qstrText tools host plan predefined =
    other.qstrText tools host { plan with srcFiles := listed } predefined := by
  unfold World.qstrText
  simp only [alike.present, output_eq deterministic]

/-- From the collected sources on, the two runs do the same, whatever was listed. -/
theorem generated_alike : Alike (fun file => file = .genhdr (collectedQstrFile ++ ".i".toList) ∨
      file = .genhdr collectedQstrFile ∨ file = .genhdr qstrFile ∨
      file = .genhdr (collectedQstrFile ++ ".tmp".toList ++ ".hash".toList) ∨
      file = .genhdr (collectedQstrFile ++ ".tmp".toList) ∨ file = .genhdr collectedQstrFile ∨ known file)
    (world.qstrsGenerated tools host plan predefined)
    (other.qstrsGenerated tools host { plan with srcFiles := listed } predefined) := by
  have collected := @alike_catQstr tools host _ _ _ deterministic alike collectedQstrFile predefined
  unfold World.qstrsGenerated
  rw [qstrText_same deterministic plan listed predefined alike]
  exact alike_genQstr deterministic collected qstrFile collectedQstrFile plan.incPaths plan.ccOptions _

theorem produced_from : Alike (fun file => (∃ name, Named name ∧ name ≠ "mpversion.h".toList ∧ file = .genhdr name) ∨ known file)
    (world.produced tools host plan predefined) (other.produced tools host { plan with srcFiles := listed } predefined) := by
  have generated := generated_alike deterministic plan listed predefined alike
  have modules := alike_catGenerate deterministic generated .module .makemoduledefs moduleFile
  have pointers := alike_catGenerate deterministic modules .rootPointer .makeRootPointers rootPointerFile
  refine pointers.mono fun file either => ?_
  rcases either with ⟨name, named, other, rfl⟩ | held
  · have modulesTmp : collectedModuleFile = moduleFile ++ ".tmp".toList := rfl
    have pointersTmp : collectedRpFile = rootPointerFile ++ ".tmp".toList := rfl
    simp only [Named, headerFiles, temporaries, List.mem_cons, List.not_mem_nil, or_false, modulesTmp, pointersTmp,
      other, false_or] at named
    simp only [File.genhdr.injEq]
    rcases named with (same | same | same) | same | same | same | same | same | same | same | same <;>
      simp only [same, true_or, or_true]
  · simp only [held, or_true]

/-- The second run gets through where the first one did, when it comes to the collected
sources and the directories are there. -/
theorem produces_from (early : Succeeds tools other .makeversionhdr ∧
      Leads.All (CollectsSource tools host plan.incPaths plan.ccOptions)
        (fun before src => before.collectSource tools host plan.incPaths plan.ccOptions src) listed (other.prepared tools))
    (there : Present { plan with srcFiles := listed } other)
    (produces : Produces tools host world plan predefined) :
    Produces tools host other { plan with srcFiles := listed } predefined := by
  obtain ⟨_, _, qstrs, expands, modules, pointers⟩ := produces
  have generated := generated_alike deterministic plan listed predefined alike
  have catted := alike_catGenerate deterministic generated .module .makemoduledefs moduleFile
  let plan' : Plan := { plan with srcFiles := listed }
  have modulesThere : ((other.qstrsGenerated tools host plan' predefined).fragments .module).isSome := by
    rw [qstrsGenerated_fragments _ _ _ (by decide), sourced_present]
    exact Or.inr (there.imp_right And.left)
  have pointersThere : ((other.modulesGenerated tools host plan' predefined).fragments .rootPointer).isSome := by
    rw [modulesGenerated_fragments _ _ _ (by decide), qstrsGenerated_fragments _ _ _ (by decide), sourced_present]
    exact Or.inr (there.imp_right And.right)
  have expansions : Expands tools host plan' (other.qstrsCollected tools host plan' predefined)
      (other.qstrText tools host plan' predefined) := by
    rw [← qstrText_same deterministic plan listed predefined alike]
    refine ⟨(succeeds_iff deterministic _).mp expands.1, ?_⟩
    have text := congrArg (unquoted host) (@output_same tools (world.qstrsCollected tools host plan predefined)
      (other.qstrsCollected tools host plan' predefined) deterministic (expanding host collectedQstrFile plan.incPaths
        plan.ccOptions (world.qstrText tools host plan predefined)))
    have expanded := expands.2
    unfold World.expanded at expanded ⊢
    rw [text] at expanded
    exact (succeeds_iff deterministic _).mp expanded
  have qstrsThere : ((other.sourced tools host plan').fragments .qstr).isSome := (sourced_present plan' .qstr).mpr (Or.inl rfl)
  refine ⟨early.1, early.2, ?_, expansions, ?_, ?_⟩
  · exact ⟨(cat_same deterministic alike .qstr).mp qstrs.1, qstrsThere⟩
  · exact ⟨(cat_same deterministic generated .module).mp modules.1, modulesThere⟩
  · exact ⟨(cat_same deterministic catted .rootPointer).mp pointers.1, pointersThere⟩

end Later

section Twice

variable {known : File → Prop} (deterministic : Deterministic tools) (plan : Plan) (predefined : Text)
  (files : ∀ file, known file → world.files file = other.files file)
  (fragments : ∀ mode, mode ≠ .qstr → world.present mode = other.present mode)
  (sources : ∀ src ∈ plan.srcFiles, known (.source src))

def KnownPrepared (known : File → Prop) (file : File) : Prop :=
  file = .genhdr qstrFile ∨ file = .genhdr "mpversion.h".toList ∨ known file

def KnownSourced (known : File → Prop) (listed : List Text) (file : File) : Prop :=
  (∃ src ∈ listed, file = .preprocessed src) ∨ KnownPrepared known file

include deterministic files fragments

theorem prepared_alike : Alike (KnownPrepared known) (world.prepared tools) (other.prepared tools) := by
  refine ⟨fun file held => ?_, fun mode => ?_⟩
  · simp only [World.prepared, World.place_files, World.write_files, World.after_files, output_eq deterministic]
    split
    next => rfl
    next notQstr =>
      split
      next => rfl
      next notVersion => exact files file ((held.resolve_left notQstr).resolve_left notVersion)
  · simp only [World.prepared, World.place_present, World.write_present, World.after_present]
    split
    next => rfl
    next different => exact fragments mode different

include sources

theorem sourced_same :
    Alike (KnownSourced known plan.srcFiles) (world.sourced tools host plan) (other.sourced tools host plan) ∧
      (Leads.All (CollectsSource tools host plan.incPaths plan.ccOptions)
          (fun before src => before.collectSource tools host plan.incPaths plan.ccOptions src) plan.srcFiles
          (world.prepared tools) ↔
        Leads.All (CollectsSource tools host plan.incPaths plan.ccOptions)
          (fun before src => before.collectSource tools host plan.incPaths plan.ccOptions src) plan.srcFiles
          (other.prepared tools)) := by
  have listed : ∀ src ∈ plan.srcFiles, KnownPrepared known (.source src) :=
    fun src member => Or.inr (Or.inr (sources src member))
  exact sources_same deterministic listed plan.incPaths plan.ccOptions (prepared_alike deterministic files fragments)

theorem produced_alike : Alike (fun file => Own plan.srcFiles file ∨ known file)
    (world.produced tools host plan predefined) (other.produced tools host plan predefined) := by
  have alike := (@sourced_same tools host _ _ _ deterministic plan files fragments sources).1
  refine (produced_from deterministic plan plan.srcFiles predefined alike).mono fun file either => ?_
  simp only [KnownSourced, KnownPrepared]
  rcases either with own | held
  · cases file with
    | source path => exact own.elim
    | preprocessed path => exact Or.inr (Or.inl ⟨path, own, rfl⟩)
    | genhdr name =>
      by_cases version : name = "mpversion.h".toList
      · exact Or.inr (Or.inr (Or.inr (Or.inl (congrArg File.genhdr version))))
      · exact Or.inl ⟨name, own, version, rfl⟩
  · exact Or.inr (Or.inr (Or.inr (Or.inr held)))

/-- With the directories there, the second run gets through where the first one did. -/
theorem produces_again (there : ∀ mode, (other.fragments mode).isSome)
    (produces : Produces tools host world plan predefined) : Produces tools host other plan predefined := by
  have sourced := @sourced_same tools host _ _ _ deterministic plan files fragments sources
  obtain ⟨version, all, _⟩ := id produces
  exact produces_from deterministic plan plan.srcFiles predefined sourced.1
    ⟨(succeeds_iff deterministic _).mp version, sourced.2.mp all⟩ (Or.inr ⟨there .module, there .rootPointer⟩) produces

end Twice

/-- One run of the script after another. -/
def again (tools : Tools) (host : Host) (args : Args) : Nat → Run PUnit
  | 0 => return
  | count + 1 => do
    main tools host args
    again tools host args count

/-- No fragments in the directories that `main` does not make empty itself. -/
def Tidy (world : World) : Prop := ∀ mode, mode ≠ .qstr → world.present mode = Directory.empty

/-- The files and the directories, without the record of the runs. -/
structure SameFiles (world other : World) : Prop where
  files : world.files = other.files
  fragments : world.fragments = other.fragments

section Again

variable (deterministic : Deterministic tools)
include deterministic

theorem main_repeats {after : World} (tidy : Tidy world) (ended : (main tools host args).exec world = (.ok ⟨⟩, after)) :
    ∃ last, (main tools host args).exec after = (.ok ⟨⟩, last) ∧ SameFiles last after := by
  obtain ⟨found, predefined, planned, read, spelled, produces, rfl⟩ := main_ended ended
  let once := world.produced tools host found predefined
  have files : ∀ file, ¬ Own found.srcFiles file → world.files file = once.files file :=
    fun file foreign => (produced_others read spelled produces foreign).symm
  have fragments : ∀ mode, mode ≠ .qstr → world.present mode = once.present mode := by
    intro mode other
    rw [tidy mode other, World.present, produced_fragments]
    rfl
  have sources : ∀ src ∈ found.srcFiles, ¬ Own found.srcFiles (.source src) := fun _ _ => id
  have there : ∀ mode, (once.fragments mode).isSome := fun mode => by rw [produced_fragments]; rfl
  have leads := (@produce_leads tools host once found predefined read).exec_eq
    ⟨spelled, produces_again deterministic found predefined files fragments sources there produces⟩
  have alike := @produced_alike tools host _ _ _ deterministic found predefined files fragments sources
  refine ⟨once.produced tools host found predefined, main_exec planned ▸ leads, ?_, ?_⟩
  · funext file
    exact (alike.files file (Classical.em _)).symm
  · funext mode
    rw [produced_fragments, produced_fragments]

/-- Once a run has completed, running the script again any number of times
completes and changes no file, when the tools do the same for the same input. -/
theorem regeneration_stable {after : World} (tidy : Tidy world)
    (ended : (main tools host args).exec world = (.ok ⟨⟩, after)) (count : Nat) :
    ∃ last, (again tools host args count).exec after = (.ok ⟨⟩, last) ∧ SameFiles last after := by
  induction count generalizing world after with
  | zero => exact ⟨after, rfl, rfl, rfl⟩
  | succ count ih =>
    obtain ⟨middle, repeated, same⟩ := main_repeats deterministic tidy ended
    have emptied : Tidy after := by
      obtain ⟨found, predefined, _, _, _, _, rfl⟩ := main_ended ended
      intro mode _
      rw [World.present, produced_fragments]
      rfl
    obtain ⟨last, rest, equal⟩ := ih emptied repeated
    refine ⟨last, ?_, equal.files.trans same.files, equal.fragments.trans same.fragments⟩
    rw [again, exec_bind, repeated]
    exact rest

/-- Whatever earlier runs have left, the second completed run makes the headers a
run without any leftovers makes. -/
theorem second_run_heals {start once fresh last : World}
    (sources : ∀ path, fresh.files (.source path) = start.files (.source path)) (tidy : Tidy fresh)
    (ended : (main tools host args).exec start = (.ok ⟨⟩, once))
    (expected : (main tools host args).exec fresh = (.ok ⟨⟩, last)) :
    ∃ twice, (main tools host args).exec once = (.ok ⟨⟩, twice) ∧
      ∀ name ∈ headerFiles, twice.files (.genhdr name) = last.files (.genhdr name) := by
  obtain ⟨found, predefined, planned, read, spelled, produces, rfl⟩ := main_ended ended
  obtain ⟨found', predefined', planned', read', _, expects, rfl⟩ := main_ended expected
  obtain rfl : found = found' := Except.ok.inj (planned.symm.trans planned')
  obtain rfl : predefined = predefined' := Option.some.inj (read.symm.trans read')
  let once := start.produced tools host found predefined
  have files : ∀ file, (∃ path, file = .source path) → fresh.files file = once.files file := by
    rintro file ⟨path, rfl⟩
    exact (sources path).trans (produced_others read spelled produces id).symm
  have fragments : ∀ mode, mode ≠ .qstr → fresh.present mode = once.present mode := by
    intro mode other
    rw [tidy mode other, World.present, produced_fragments]
    rfl
  have known : ∀ src ∈ found.srcFiles, ∃ path, File.source src = .source path := fun src _ => ⟨src, rfl⟩
  have there : ∀ mode, (once.fragments mode).isSome := fun mode => by rw [produced_fragments]; rfl
  have leads := (@produce_leads tools host once found predefined read).exec_eq
    ⟨spelled, produces_again deterministic found predefined files fragments known there expects⟩
  have alike := @produced_alike tools host _ _ _ deterministic found predefined files fragments known
  refine ⟨once.produced tools host found predefined, main_exec planned ▸ leads, fun name member => ?_⟩
  exact (alike.files (.genhdr name) (Or.inl (Or.inl member))).symm

end Again

theorem nextRun_heals : ∃ twice,
    (main brokenB (listing "c.c\n".toList) ⟨"/w/M.inf".toList, "X64".toList⟩).exec (nextRun stopped).2 = (.ok ⟨⟩, twice) ∧
      ∀ name ∈ headerFiles, twice.files (.genhdr name) = (nextRun clean).2.files (.genhdr name) := by
  have ended : (nextRun stopped).1 = .ok ⟨⟩ := by decide +kernel
  have expected : (nextRun clean).1 = .ok ⟨⟩ := by decide +kernel
  have deterministic : Deterministic brokenB := fun _ _ _ => rfl
  have sources : ∀ path, (clean.start fun _ => none).files (.source path) =
      (stopped.start fun _ => none).files (.source path) := fun _ => rfl
  have tidy : Tidy (clean.start fun _ => none) := fun _ _ => rfl
  exact second_run_heals deterministic sources tidy (nextRun_ends ended) (nextRun_ends expected)

theorem firstRun_stable : ∃ last,
    (again (copying Directory.entries id id) (listing "a.c\nb.c\n".toList) ⟨"/w/M.inf".toList, "X64".toList⟩ 3).exec
      firstRun.2 = (.ok ⟨⟩, last) ∧ SameFiles last firstRun.2 :=
  regeneration_stable (fun _ _ _ => rfl) (fun _ _ => rfl) firstRun_ends 3

end SblPayload.Proofs.GenhdrAgain
