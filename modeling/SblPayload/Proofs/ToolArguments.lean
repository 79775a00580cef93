import SblPayload.Genhdr.Commands

/-! The arguments the programs get, against the paths the helpers are given. -/

namespace SblPayload.Proofs.ToolArguments
open Library Text Genhdr Shlex

variable (os : Os) (ppCmd : List Text)

/-- One argument for each path; none when the option text has no words. -/
def intended : Command → Option (List Text)
  | .preprocess inFile outFile incs option => (Shlex.split option).map fun tokens =>
    ppCmd ++ (tokens ++ (incs.map (incFlag os.name ++ ·) ++ [outFlag os.name ++ outFile, inFile]))
  | .collectQstr src mpyDir qstrDir => some (splitWords os .qstr src mpyDir qstrDir)
  | .collectModules src mpyDir moduleDir => some (splitWords os .module src mpyDir moduleDir)
  | .collectRootPointers src mpyDir rootPointerDir => some (splitWords os .rootPointer src mpyDir rootPointerDir)
  | .catQstr dst mpyDir qstrDir => some (catWords os .qstr (dst ++ ".tmp".toList) mpyDir qstrDir)
  | .catModule dst mpyDir moduleDir => some (catWords os .module dst mpyDir moduleDir)
  | .catRootPointers dst mpyDir rootPointerDir => some (catWords os .rootPointer dst mpyDir rootPointerDir)
  | .genQstr collectedQstr mpyDir => some (genWords os "makeqstrdata.py".toList mpyDir (collectedQstr ++ ".i".toList))
  | .genModule collectedModule mpyDir => some (genWords os "makemoduledefs.py".toList mpyDir collectedModule)
  | .genRootPointers collectedRootPointer mpyDir =>
    some (genWords os "make_root_pointers.py".toList mpyDir collectedRootPointer)
  | .genVersion mpyDir hdrFile => some (genWords os "makeversionhdr.py".toList mpyDir hdrFile)

def Delivered (command : Command) : Prop :=
  ∃ args, intended os ppCmd command = some args ∧ argv os ppCmd command = some args

/-- The paths of a command line: the script and what it works on. -/
def paths : Command → List Text
  | .preprocess inFile .. => [inFile]
  | .collectQstr src mpyDir folder => [pyScript os mpyDir "makeqstrdefs.py".toList, src, folder]
  | .collectModules src mpyDir folder => [pyScript os mpyDir "makeqstrdefs.py".toList, src, folder]
  | .collectRootPointers src mpyDir folder => [pyScript os mpyDir "makeqstrdefs.py".toList, src, folder]
  | .catQstr dst mpyDir folder => [pyScript os mpyDir "makeqstrdefs.py".toList, folder, dst ++ ".tmp".toList]
  | .catModule dst mpyDir folder => [pyScript os mpyDir "makeqstrdefs.py".toList, folder, dst]
  | .catRootPointers dst mpyDir folder => [pyScript os mpyDir "makeqstrdefs.py".toList, folder, dst]
  | .genQstr collected mpyDir => [pyScript os mpyDir "makeqstrdata.py".toList, collected ++ ".i".toList]
  | .genModule collected mpyDir => [pyScript os mpyDir "makemoduledefs.py".toList, collected]
  | .genRootPointers collected mpyDir => [pyScript os mpyDir "make_root_pointers.py".toList, collected]
  | .genVersion .. => []

/-- The paths that stand behind a flag need only be without whitespace. An empty
list of directories leaves the flag alone. -/
def Flagged : Command → Prop
  | .preprocess _ outFile incs option =>
    (Shlex.split option).isSome ∧ incs ≠ [] ∧ (∀ inc ∈ incs, Unbroken inc) ∧ Unbroken outFile
  | _ => True

structure Deliverable (command : Command) : Prop where
  tokens : ∀ path ∈ paths os command, Token path
  flagged : Flagged command

theorem python_token : Token python := Or.inl ⟨⟨'p', rfl, rfl⟩, by decide⟩

theorem keyword_token (mode : Mode) : Token mode.keyword := by
  cases mode with
  | qstr => exact Or.inl ⟨⟨'q', rfl, rfl⟩, by decide⟩
  | module => exact Or.inl ⟨⟨'m', rfl, rfl⟩, by decide⟩
  | rootPointer => exact Or.inl ⟨⟨'r', rfl, rfl⟩, by decide⟩

theorem split_keyword_token : Token "split".toList := Or.inl ⟨⟨'s', rfl, rfl⟩, by decide⟩

theorem cat_keyword_token : Token "cat".toList := Or.inl ⟨⟨'c', rfl, rfl⟩, by decide⟩

theorem dummy_token : Token "dummy".toList := Or.inl ⟨⟨'d', rfl, rfl⟩, by decide⟩

theorem incFlag_bare (name : OsName) : Bare (incFlag name) := by
  cases name with
  | posix => exact ⟨⟨'-', rfl, rfl⟩, by decide⟩
  | nt => exact ⟨⟨'/', rfl, rfl⟩, by decide⟩

theorem outFlag_bare (name : OsName) : Bare (outFlag name) := by
  cases name with
  | posix => exact ⟨⟨'-', rfl, rfl⟩, by decide⟩
  | nt => exact ⟨⟨'/', rfl, rfl⟩, by decide⟩

section Helpers

theorem splitWords_iff (mode : Mode) (src mpyDir folder : Text) :
    Shlex.split (unwords (splitWords os mode src mpyDir folder)) = some (splitWords os mode src mpyDir folder) ↔
      ∀ path ∈ [pyScript os mpyDir "makeqstrdefs.py".toList, src, folder], Token path := by
  rw [split_unwords_iff, splitWords]
  simp only [List.forall_mem_cons, python_token, split_keyword_token, keyword_token, dummy_token, true_and]

theorem catWords_iff (mode : Mode) (dst mpyDir folder : Text) :
    Shlex.split (unwords (catWords os mode dst mpyDir folder)) = some (catWords os mode dst mpyDir folder) ↔
      ∀ path ∈ [pyScript os mpyDir "makeqstrdefs.py".toList, folder, dst], Token path := by
  rw [split_unwords_iff, catWords]
  simp only [List.forall_mem_cons, python_token, cat_keyword_token, keyword_token, dummy_token, true_and]

theorem genWords_iff (script mpyDir collected : Text) :
    Shlex.split (unwords (genWords os script mpyDir collected)) = some (genWords os script mpyDir collected) ↔
      ∀ path ∈ [pyScript os mpyDir script, collected], Token path := by
  rw [split_unwords_iff, genWords]
  simp only [List.forall_mem_cons, python_token, true_and]

end Helpers

section Preprocess

/-- The directories are joined with the flag between them, and the first flag is
written in front. -/
theorem flag_intercalate (flag inc : Text) (incs : List Text) (word : Text) (words : List Text) :
    flag ++ ((' ' :: flag).intercalate (inc :: incs) ++ ' ' :: unwords (word :: words)) =
      unwords ((inc :: incs).map (flag ++ ·) ++ word :: words) := by
  induction incs generalizing inc with
  | nil =>
    rw [List.intercalate_singleton, List.map_singleton, List.singleton_append, unwords_cons, List.append_assoc]
  | cons other incs ih =>
    have later := ih other
    rw [List.map_cons, List.cons_append] at later
    rw [List.intercalate_cons_cons, List.map_cons, List.cons_append, List.map_cons, List.cons_append, unwords_cons, ← later]
    simp only [List.append_assoc, List.cons_append]

theorem outFile_unwords (flag outFile inFile : Text) :
    flag ++ (outFile ++ ' ' :: inFile) = unwords [flag ++ outFile, inFile] := by
  rw [unwords_cons, unwords, List.intercalate_singleton, List.append_assoc]

theorem preprocessCommand_eq (name : OsName) (inFile outFile : Text) {incs : List Text} (some : incs ≠ []) (option : Text) :
    preprocessCommand name inFile outFile incs option =
      unwords (option :: (incs.map (incFlag name ++ ·) ++ [outFlag name ++ outFile, inFile])) := by
  obtain ⟨inc, incs, rfl⟩ := List.exists_cons_of_ne_nil some
  rw [List.map_cons, List.cons_append, unwords_cons, preprocessCommand, outFile_unwords (outFlag name),
    flag_intercalate, List.map_cons, List.cons_append]

/-- Without directories the flag is an argument of its own. -/
theorem preprocess_bare_flag (name : OsName) (inFile outFile : Text) {option : Text} {tokens : List Text}
    (cut : Shlex.split option = some tokens) :
    Shlex.split (preprocessCommand name inFile outFile [] option) ≠ some (tokens ++ [outFlag name ++ outFile, inFile]) := by
  have flag : Shlex.split (incFlag name) = some [incFlag name] := split_token (Or.inl (incFlag_bare name))
  intro same
  rw [preprocessCommand, outFile_unwords (outFlag name), split_append cut, List.intercalate_nil, List.nil_append,
    split_append flag] at same
  obtain ⟨words, read, same⟩ := Option.map_eq_some_iff.mp same
  obtain ⟨others, _, rfl⟩ := Option.map_eq_some_iff.mp read
  have first := (List.cons.inj (List.append_cancel_left same)).1
  cases name with
  | posix => cases first
  | nt => cases first

theorem preprocess_iff (inFile outFile : Text) (incs : List Text) (option : Text) :
    Delivered os ppCmd (.preprocess inFile outFile incs option) ↔ Deliverable os (.preprocess inFile outFile incs option) := by
  constructor
  · intro delivered
    obtain ⟨args, wanted, passed⟩ := delivered
    obtain ⟨tokens, cut, rfl⟩ := Option.map_eq_some_iff.mp wanted
    obtain ⟨words, read, same⟩ := Option.map_eq_some_iff.mp passed
    rw [List.append_cancel_left same] at read
    by_cases none : incs = []
    · rw [none] at read
      exact absurd read (preprocess_bare_flag os.name inFile outFile cut)
    · rw [preprocessCommand_eq os.name inFile outFile none, split_after_iff cut] at read
      obtain ⟨flagged, last⟩ := List.forall_mem_append.mp read
      obtain ⟨out, last⟩ := List.forall_mem_cons.mp last
      refine ⟨last, by rw [cut]; rfl, none, ?_, (token_flagged (outFlag_bare os.name) outFile).mp out⟩
      intro inc member
      exact (token_flagged (incFlag_bare os.name) inc).mp (flagged _ (List.mem_map_of_mem member))
  · intro deliverable
    obtain ⟨last, splits, nonempty, unbroken, out⟩ := deliverable
    obtain ⟨tokens, cut⟩ := Option.isSome_iff_exists.mp splits
    have read : ∀ word ∈ incs.map (incFlag os.name ++ ·) ++ [outFlag os.name ++ outFile, inFile], Token word := by
      refine List.forall_mem_append.mpr ⟨?_, ?_⟩
      · intro word member
        obtain ⟨inc, inside, rfl⟩ := List.mem_map.mp member
        exact (token_flagged (incFlag_bare os.name) inc).mpr (unbroken inc inside)
      · exact List.forall_mem_cons.mpr ⟨(token_flagged (outFlag_bare os.name) outFile).mpr out, last⟩
    have wanted := congrArg (Option.map fun tokens => ppCmd ++ (tokens ++
      (incs.map (incFlag os.name ++ ·) ++ [outFlag os.name ++ outFile, inFile]))) cut
    refine ⟨_, wanted, ?_⟩
    rw [argv, preprocessCommand_eq os.name inFile outFile nonempty, (split_after_iff cut _).mpr read, Option.map_some]

end Preprocess

theorem delivered_some {command : Command} {args : List Text} (wanted : intended os ppCmd command = some args) :
    Delivered os ppCmd command ↔ argv os ppCmd command = some args := by
  constructor
  · intro delivered
    obtain ⟨passed, same, ended⟩ := delivered
    rw [wanted] at same
    rw [ended, same]
  · intro ended
    exact ⟨args, wanted, ended⟩

/-- A helper without flags delivers its paths when the split arguments are the paths
and fixed words. -/
theorem delivered_paths {command : Command} {args : List Text} (plain : Flagged command)
    (wanted : intended os ppCmd command = some args)
    (splits : argv os ppCmd command = some args ↔ ∀ path ∈ paths os command, Token path) :
    Delivered os ppCmd command ↔ Deliverable os command := by
  rw [delivered_some os ppCmd wanted, splits]
  exact ⟨fun tokens => ⟨tokens, plain⟩, fun deliverable => deliverable.tokens⟩

theorem delivered_iff (command : Command) : Delivered os ppCmd command ↔ Deliverable os command := by
  cases command with
  | preprocess inFile outFile incs option => exact preprocess_iff os ppCmd inFile outFile incs option
  | collectQstr src mpyDir folder =>
    exact delivered_paths os ppCmd trivial rfl (splitWords_iff os .qstr src mpyDir folder)
  | collectModules src mpyDir folder =>
    exact delivered_paths os ppCmd trivial rfl (splitWords_iff os .module src mpyDir folder)
  | collectRootPointers src mpyDir folder =>
    exact delivered_paths os ppCmd trivial rfl (splitWords_iff os .rootPointer src mpyDir folder)
  | catQstr dst mpyDir folder =>
    exact delivered_paths os ppCmd trivial rfl (catWords_iff os .qstr (dst ++ ".tmp".toList) mpyDir folder)
  | catModule dst mpyDir folder =>
    exact delivered_paths os ppCmd trivial rfl (catWords_iff os .module dst mpyDir folder)
  | catRootPointers dst mpyDir folder =>
    exact delivered_paths os ppCmd trivial rfl (catWords_iff os .rootPointer dst mpyDir folder)
  | genQstr collected mpyDir =>
    exact delivered_paths os ppCmd trivial rfl (genWords_iff os "makeqstrdata.py".toList mpyDir (collected ++ ".i".toList))
  | genModule collected mpyDir =>
    exact delivered_paths os ppCmd trivial rfl (genWords_iff os "makemoduledefs.py".toList mpyDir collected)
  | genRootPointers collected mpyDir =>
    exact delivered_paths os ppCmd trivial rfl (genWords_iff os "make_root_pointers.py".toList mpyDir collected)
  | genVersion mpyDir hdrFile =>
    exact delivered_paths os ppCmd trivial rfl (iff_of_true rfl (List.forall_mem_nil _))

/-- A blank in an include directory, and one in the path of a source. -/
theorem blank_splits_path :
    ¬ Delivered Posix.os ["gcc".toList]
      (.preprocess "/w/a.c".toList "/w/a.c.i".toList ["/my pkg".toList] "-DNO_QSTR".toList) ∧
    ¬ Delivered Posix.os ["gcc".toList] (.collectQstr "/my src/a.c.i".toList "/w".toList "/w/q".toList) := by
  constructor
  · intro delivered
    have unbroken := ((preprocess_iff _ _ _ _ _ _).mp delivered).flagged.2.2.1 _ List.mem_cons_self
    exact absurd unbroken (by decide)
  · intro delivered
    rw [delivered_some _ _ rfl] at delivered
    exact absurd delivered (by decide)

end SblPayload.Proofs.ToolArguments
