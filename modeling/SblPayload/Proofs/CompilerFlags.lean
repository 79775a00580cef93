import SblPayload.Library.Collect
import SblPayload.Library.Splitting
import SblPayload.Proofs.SectionHeaders

/-! The options that reach the preprocessor, against the values written in the file.
The script looks for a double assignment before a single one, over the whole of
what follows the family. -/

namespace SblPayload.Proofs.CompilerFlags
open Library Text Genhdr InfSections SectionHeaders

/-- A line `FAMILY:TARGET_TAG_ARCH_TOOL_ATTR = value`. -/
structure OptionLine where
  family : Text
  target : Text
  tag : Text
  arch : Text
  tool : Text
  attr : Text
  value : Text

/-- The first assignment operator, which is a single or a double one. -/
def assignment (text : Text) : Option (Text × Text) :=
  (splitOnce ['='] text).map fun (key, rest) => (key, if startswith rest ['='] then rest.drop 1 else rest)

def readOption (line : Text) : Option OptionLine := do
  let (family, rest) ← splitOnce [':'] line
  let (key, value) ← assignment rest
  match split '_' (strip key) with
  | [target, tag, arch, tool, attr] => some ⟨strip family, target, tag, arch, tool, attr, strip value⟩
  | _ => none

/-- What stands before a double assignment in the value of a single one. -/
def misread (line : Text) : Option Text := do
  let (_, rest) ← splitOnce [':'] line
  let (_, value) ← splitOnce ['='] rest
  if startswith value ['='] then none else (splitOnce ['=', '='] value).map Prod.fst

section Reading
variable (setup : Setup)

/-- An option of the C compiler for the machine, whatever its attribute. -/
def ForCompiler (option : OptionLine) : Prop :=
  (option.arch = setup.arch ∨ option.arch = ['*']) ∧ option.tool = "CC".toList

instance (option : OptionLine) : Decidable (ForCompiler setup option) := inferInstanceAs (Decidable (_ ∧ _))

def flags (line : Text) : Text :=
  match readOption line with
  | none => []
  | some option =>
    if hostFamily setup option.family ∧ ForCompiler setup option ∧ option.attr = "FLAGS".toList then ' ' :: option.value
    else []

/-- The line is read as it is written: the value is not cut at a double assignment,
or the line says nothing to the compiler and is only cut. -/
def ReadRight (line : Text) (option : OptionLine) : Prop :=
  match misread line with
  | none => ForCompiler setup option → option.attr = "FLAGS".toList
  | some key => '_' ∉ key ∧ ¬ ForCompiler setup option

end Reading

section Lines

/-- The parts of a line with an option. -/
structure Parts (line : Text) (option : OptionLine) (family key after : Text) : Prop where
  opened : splitOnce [':'] line = some (family, key ++ '=' :: after)
  named : option.family = strip family
  keyFree : '=' ∉ key
  fields : split '_' (strip key) = [option.target, option.tag, option.arch, option.tool, option.attr]
  value : option.value = strip (if startswith after ['='] then after.drop 1 else after)

theorem parts_of_option {line : Text} {option : OptionLine} (read : readOption line = some option) :
    ∃ family key after, Parts line option family key after := by
  obtain ⟨⟨family, rest⟩, opened, read⟩ := Option.bind_eq_some_iff.mp read
  obtain ⟨⟨key, value⟩, assigned, read⟩ := Option.bind_eq_some_iff.mp read
  obtain ⟨⟨front, after⟩, cut, same⟩ := Option.map_eq_some_iff.mp assigned
  cases same
  have whole := splitOnce_spec cut
  dsimp only at read
  split at read
  next target tag arch tool attr fields =>
    cases read
    exact ⟨family, key, after, by rw [opened, whole]; rfl, rfl, splitOnce_free cut, fields, rfl⟩
  next => cases read

variable {line family key after : Text} {option : OptionLine}

theorem Parts.misread (parts : Parts line option family key after) :
    misread line = if startswith after ['='] then none else (splitOnce ['=', '='] after).map Prod.fst := by
  rw [CompilerFlags.misread, parts.opened]
  change (splitOnce ['='] (key ++ '=' :: after)).bind _ = _
  rw [splitOnce_at parts.keyFree]
  rfl

/-- The cut of the script: a double assignment first, anywhere. -/
def cutOption (rest : Text) : Option (Text × Text) := (splitOnce ['=', '='] rest).or (splitOnce ['='] rest)

theorem cut_double (keyFree : '=' ∉ key) (value : Text) : cutOption (key ++ '=' :: '=' :: value) = some (key, value) := by
  have here := splitOnce_here '=' ['='] value
  rw [cutOption, splitOnce_append keyFree, show '=' :: '=' :: value = ['=', '='] ++ value from rfl, here, Option.map_some,
    Option.some_or, List.append_nil]

/-- After a single assignment the script goes on to look for a double one. -/
theorem double_after (keyFree : '=' ∉ key) (single : startswith after ['='] = false) :
    splitOnce ['=', '='] (key ++ '=' :: after) =
      (splitOnce ['=', '='] after).map fun parts => (key ++ '=' :: parts.1, parts.2) := by
  have different : ¬ ['=', '='] <+: '=' :: after := by
    intro starts
    have second := (List.cons_prefix_cons.mp starts).2
    rw [startswith, List.isPrefixOf_iff_prefix.mpr second] at single
    cases single
  rw [splitOnce_append keyFree, splitOnce_other different, Option.map_map]
  rfl

theorem Parts.cut_right (parts : Parts line option family key after) (whole : CompilerFlags.misread line = none) :
    ∃ value, cutOption (key ++ '=' :: after) = some (key, value) ∧ strip value = option.value := by
  rw [parts.misread] at whole
  have value := parts.value
  cases double : startswith after ['='] with
  | true =>
    obtain ⟨rest, same⟩ := List.isPrefixOf_iff_prefix.mp double
    rw [double, if_pos rfl, ← same] at value
    rw [← same]
    exact ⟨rest, cut_double parts.keyFree rest, value.symm⟩
  | false =>
    rw [double] at whole value
    have none := Option.map_eq_none_iff.mp whole
    refine ⟨after, ?_, value.symm⟩
    rw [cutOption, double_after parts.keyFree double, none, Option.map_none, Option.none_or, splitOnce_at parts.keyFree]

theorem Parts.cut_wrong (parts : Parts line option family key after) {front : Text}
    (broken : CompilerFlags.misread line = some front) :
    ∃ last, cutOption (key ++ '=' :: after) = some (key ++ '=' :: front, last) ∧
      option.value = strip (front ++ ('=' :: '=' :: last)) := by
  rw [parts.misread] at broken
  have value := parts.value
  cases double : startswith after ['='] with
  | true =>
    rw [double] at broken
    cases broken
  | false =>
    rw [double] at broken value
    obtain ⟨⟨before, last⟩, found, same⟩ := Option.map_eq_some_iff.mp broken
    cases same
    refine ⟨last, ?_, ?_⟩
    · rw [cutOption, double_after parts.keyFree double, found, Option.map_some, Option.some_or]
    · rw [value, if_neg (by decide), splitOnce_spec found]
      rfl

/-- The end of the value alone is not the value. -/
theorem last_differs (front last : Text) : strip last ≠ strip (front ++ '=' :: '=' :: last) := by
  intro same
  have visible : isspace '=' = false := by decide
  have counted := congrArg (List.count '=') same
  rw [count_strip visible, count_strip visible, List.count_append, List.count_cons_self, List.count_cons_self] at counted
  omega

/-- What stands after the key in the wrong cut makes the last field longer. -/
theorem fields_longer (fields : split '_' (strip key) = [option.target, option.tag, option.arch, option.tool, option.attr])
    {front : Text} (free : '_' ∉ front) :
    ∃ last, split '_' (strip (key ++ '=' :: front)) = [option.target, option.tag, option.arch, option.tool, last] := by
  have visible : strip key ≠ [] := by
    intro blank
    have five := congrArg List.length fields
    rw [blank, length_split] at five
    cases five
  have marked : rstrip ('=' :: front) ≠ [] := by
    intro blank
    exact absurd (List.rdropWhile_eq_nil_iff.mp blank '=' List.mem_cons_self) (by decide)
  obtain ⟨blanks, all, same⟩ := strip_append visible marked
  refine ⟨option.attr ++ (blanks ++ rstrip ('=' :: front)), ?_⟩
  rw [same]
  apply @split_extend '_' (strip key) option.attr _ [option.target, option.tag, option.arch, option.tool] fields
  rw [List.mem_append, not_or]
  constructor
  · intro member
    exact absurd (all '_' member) (by decide)
  · intro member
    have inside := (List.rdropWhile_prefix isspace _).subset member
    cases List.mem_cons.mp inside with
    | inl same => cases same
    | inr later => exact free later

theorem fields_more (fields : split '_' (strip key) = [option.target, option.tag, option.arch, option.tool, option.attr])
    {front : Text} (member : '_' ∈ front) : 5 < (split '_' (strip (key ++ '=' :: front))).length := by
  have visible : isspace '_' = false := by decide
  have five := congrArg List.length fields
  rw [length_split, count_strip visible] at five
  have more : 0 < front.count '_' := List.count_pos_iff.mpr member
  rw [length_split, count_strip visible, List.count_append, List.count_cons_of_ne (by decide)]
  simp only [List.length_cons, List.length_nil] at five
  omega

section Added
variable {setup : Setup} (ccOptions : Text)

theorem addOption_foreign (parts : Parts line option family key after) (foreign : hostFamily setup option.family = false) :
    addOption setup ccOptions line = .ok ccOptions := by
  rw [addOption, parts.opened]
  dsimp only
  rw [← parts.named, foreign, if_neg (by decide)]

theorem addOption_host (parts : Parts line option family key after) (host : hostFamily setup option.family = true)
    {tool value : Text} (cut : cutOption (key ++ '=' :: after) = some (tool, value)) :
    addOption setup ccOptions line = match split '_' (strip tool) with
      | [_, _, arch, tool, _] =>
        if (arch = setup.arch ∨ arch = ['*']) ∧ tool = "CC".toList then .ok (ccOptions ++ ' ' :: strip value)
        else .ok ccOptions
      | _ => .error .value := by
  rw [addOption, parts.opened]
  dsimp only
  rw [← parts.named, host, if_pos rfl]
  rw [cutOption] at cut
  -- the two sides decide the conjunction by different instances
  rewrite [cut]
  rfl

theorem addOption_whole (parts : Parts line option family key after) (host : hostFamily setup option.family = true)
    (whole : misread line = none) :
    addOption setup ccOptions line =
        .ok (ccOptions ++ if ForCompiler setup option ∧ option.attr = "FLAGS".toList then ' ' :: option.value else []) ↔
      (ForCompiler setup option → option.attr = "FLAGS".toList) := by
  obtain ⟨value, cut, same⟩ := parts.cut_right whole
  rw [addOption_host ccOptions parts host cut, parts.fields, same]
  change (if ForCompiler setup option then _ else _) = _ ↔ _
  by_cases compiler : ForCompiler setup option
  · rw [if_pos compiler]
    by_cases attr : option.attr = "FLAGS".toList
    · rw [if_pos ⟨compiler, attr⟩]
      exact iff_of_true rfl fun _ => attr
    · rw [if_neg fun both => attr both.2]
      refine iff_of_false ?_ fun all => attr (all compiler)
      intro same
      cases List.append_cancel_left (Except.ok.inj same)
  · rw [if_neg compiler, if_neg fun both => compiler both.1, List.append_nil]
    exact iff_of_true rfl fun held => absurd held compiler

/-- A line cut inside its value has too many fields, or the last one is longer. -/
theorem addOption_broken {front : Text} (parts : Parts line option family key after)
    (host : hostFamily setup option.family = true) (broken : misread line = some front) :
    addOption setup ccOptions line =
        .ok (ccOptions ++ if ForCompiler setup option ∧ option.attr = "FLAGS".toList then ' ' :: option.value else []) ↔
      '_' ∉ front ∧ ¬ ForCompiler setup option := by
  obtain ⟨last, cut, whole⟩ := parts.cut_wrong broken
  rw [addOption_host ccOptions parts host cut]
  by_cases member : '_' ∈ front
  · have more := fields_more parts.fields member
    refine iff_of_false ?_ fun right => right.1 member
    split
    next fields =>
      rw [fields] at more
      cases Nat.lt_irrefl 5 more
    next => exact fun same => by cases same
  · obtain ⟨longer, fields⟩ := fields_longer parts.fields member
    rw [fields]
    change (if ForCompiler setup option then _ else _) = _ ↔ _
    by_cases compiler : ForCompiler setup option
    · refine iff_of_false ?_ fun right => right.2 compiler
      rw [if_pos compiler]
      intro same
      have added := List.append_cancel_left (Except.ok.inj same)
      by_cases attr : option.attr = "FLAGS".toList
      · rw [if_pos ⟨compiler, attr⟩, whole] at added
        exact last_differs front last (List.cons.inj added).2
      · rw [if_neg fun both => attr both.2] at added
        cases added
    · rw [if_neg compiler, if_neg fun both => compiler both.1, List.append_nil]
      exact iff_of_true rfl ⟨member, compiler⟩

/-- The line adds what it says exactly when it is read right. -/
theorem addOption_iff (read : readOption line = some option) :
    addOption setup ccOptions line = .ok (ccOptions ++ flags setup line) ↔
      (hostFamily setup option.family = true → ReadRight setup line option) := by
  obtain ⟨family, key, after, parts⟩ := parts_of_option read
  cases host : hostFamily setup option.family with
  | false =>
    have nothing : flags setup line = [] := by
      rw [flags, read]
      simp [host]
    rw [addOption_foreign ccOptions parts host, nothing, List.append_nil]
    simp
  | true =>
    have wanted : flags setup line =
        if ForCompiler setup option ∧ option.attr = "FLAGS".toList then ' ' :: option.value else [] := by
      rw [flags, read]
      simp only [host, true_and]
    rw [wanted, ReadRight, forall_prop_of_true rfl]
    cases broken : misread line with
    | none => exact addOption_whole ccOptions parts host broken
    | some front => exact addOption_broken ccOptions parts host broken

end Added

end Lines

section Scan
variable (setup : Setup)

/-- What a line adds to the options. -/
def picked (front : List Text) (raw : Text) : Text :=
  if IsEntry raw ∧ headed .buildOptions front then flags setup (cleanLine raw) else []

def wantedOptions (raws : List Text) : Text := "-DNO_QSTR".toList ++ collect (picked setup) raws

/-- Every line of a section of build options is one with a value. -/
def WellFormed (text : Text) : Prop := ∀ front raw, At (readlines text) front raw → IsEntry raw →
  headed .buildOptions front → ∃ option, readOption (cleanLine raw) = some option ∧ option.value ≠ []

instance (raw : Text) : Decidable (∃ option, readOption (cleanLine raw) = some option ∧ option.value ≠ []) :=
  decidable_of_iff (∃ option ∈ readOption (cleanLine raw), option.value ≠ []) Iff.rfl

instance (text : Text) : Decidable (WellFormed text) :=
  inferInstanceAs (Decidable (∀ front raw, At (readlines text) front raw → IsEntry raw →
    headed .buildOptions front → ∃ option, readOption (cleanLine raw) = some option ∧ option.value ≠ []))

/-- The scan goes on after every line with the options the lines say, and so ends. -/
structure Verbatim (text : Text) : Prop where
  result : ∃ scan, scanInf setup text = .ok scan ∧ scan.ccOptions = wantedOptions setup (readlines text)
  throughout : ∀ front, front <+: readlines text →
    ∃ scan, scanLines setup front = .ok scan ∧ scan.ccOptions = wantedOptions setup front

/-- Definitions have an assignment, and options of the host's family are read right. -/
structure LinesRead (text : Text) : Prop where
  definitions : ∀ front raw, At (readlines text) front raw → IsEntry raw → headed .defines front →
    startswith (cleanLine raw) "DEFINE ".toList → '=' ∈ (cleanLine raw).drop 6
  options : ∀ front raw, At (readlines text) front raw → IsEntry raw → headed .buildOptions front →
    ∀ option, readOption (cleanLine raw) = some option → hostFamily setup option.family = true →
      ReadRight setup (cleanLine raw) option

theorem wantedOptions_snoc (front : List Text) (raw : Text) :
    wantedOptions setup (front ++ [raw]) = wantedOptions setup front ++ picked setup front raw := by
  unfold wantedOptions
  rw [collect_snoc]
  exact (List.append_assoc ..).symm

variable {setup}

theorem defineMacro_isOk (macros : List (Text × Text)) (line : Text) :
    (∃ after, defineMacro macros line = .ok after) ↔ (startswith line "DEFINE ".toList → '=' ∈ line.drop 6) := by
  unfold defineMacro
  rw [← splitOnce_isSome]
  by_cases opened : startswith line "DEFINE ".toList = true
  · rw [if_pos opened]
    cases splitOnce ['='] (line.drop 6) with
    | none =>
      refine iff_of_false ?_ fun cut => by cases cut opened
      intro ended
      obtain ⟨after, same⟩ := ended
      cases same
    | some parts => exact iff_of_true ⟨_, rfl⟩ fun _ => rfl
  · rw [if_neg opened]
    exact iff_of_true ⟨_, rfl⟩ fun other => absurd other opened

theorem ended_iff {scan : Scan} {holds : Scan → Prop} :
    (∃ after, (.ok scan : Except PyError Scan) = .ok after ∧ holds after) ↔ holds scan := by
  constructor
  · intro ended
    obtain ⟨after, same, held⟩ := ended
    cases same
    exact held
  · intro held
    exact ⟨scan, rfl, held⟩

theorem not_ended {error : PyError} {holds : Scan → Prop} :
    ¬ ∃ after, (.error error : Except PyError Scan) = .ok after ∧ holds after := by
  intro ended
  obtain ⟨after, same, _⟩ := ended
  cases same

/-- An entry raises nothing and leads to the given options, by the section it is in. -/
theorem entry_options_iff {scan : Scan} {raw : Text} (exclusive : Exclusive scan) (entry : IsEntry raw) (options : Text) :
    (∃ after, scanLine setup scan raw = .ok after ∧ after.ccOptions = options) ↔
      (inside scan .defines = true → ∃ macros, defineMacro scan.macros (cleanLine raw) = .ok macros) ∧
      (if inside scan .buildOptions then addOption setup scan.ccOptions (cleanLine raw) = .ok options
      else scan.ccOptions = options) := by
  have plain : (cleanLine raw).head? ≠ some '[' := fun opened => entry.2 (decide_eq_true opened)
  unfold scanLine
  rw [if_neg entry.1, if_neg plain]
  by_cases build : inside scan .buildOptions = true
  · have noDefine : scan.inDefSection = false := @outside_of_inside scan exclusive _ .defines build (by decide)
    have noSource : scan.inSrcSection = false := @outside_of_inside scan exclusive _ .sources build (by decide)
    have built : scan.inBldSection = true := build
    simp only [inside, noDefine, noSource, built, ↓reduceIte, Bool.false_eq_true, false_implies, true_and]
    cases addOption setup scan.ccOptions (cleanLine raw) with
    | error error => exact iff_of_false not_ended fun same => by cases same
    | ok ccOptions =>
      apply ended_iff.trans
      exact ⟨congrArg Except.ok, Except.ok.inj⟩
  · have notBuilt : scan.inBldSection = false := Bool.not_eq_true _ ▸ build
    simp only [inside, notBuilt, ↓reduceIte, Bool.false_eq_true]
    cases scan.inDefSection with
    | false =>
      simp only [↓reduceIte, Bool.false_eq_true, false_implies, true_and]
      exact ended_iff
    | true =>
      simp only [↓reduceIte, true_implies]
      cases defineMacro scan.macros (cleanLine raw) with
      | error error => exact iff_of_false not_ended fun both => by cases both.1.choose_spec
      | ok macros =>
        apply ended_iff.trans
        exact ⟨fun held => ⟨⟨macros, rfl⟩, held⟩, And.right⟩

/-- The condition on one line. -/
def LineRead (setup : Setup) (front : List Text) (raw : Text) : Prop :=
  (headed .defines front → startswith (cleanLine raw) "DEFINE ".toList → '=' ∈ (cleanLine raw).drop 6) ∧
  (headed .buildOptions front → ∀ option, readOption (cleanLine raw) = some option →
    hostFamily setup option.family = true → ReadRight setup (cleanLine raw) option)

/-- One line keeps the options right exactly when it is read right. -/
theorem line_kept_iff {front : List Text} {raw : Text} {scan : Scan} (ran : scanLines setup front = .ok scan)
    (held : scan.ccOptions = wantedOptions setup front)
    (formed : IsEntry raw → headed .buildOptions front →
      ∃ option, readOption (cleanLine raw) = some option ∧ option.value ≠ []) :
    (∃ after, scanLines setup (front ++ [raw]) = .ok after ∧ after.ccOptions = wantedOptions setup (front ++ [raw])) ↔
      (IsEntry raw → LineRead setup front raw) := by
  obtain ⟨exclusive, flagged⟩ := scanLines_sections ran
  rw [scanLines_snoc, ran, wantedOptions_snoc, picked]
  change (∃ after, scanLine setup scan raw = .ok after ∧ _) ↔ _
  rcases line_cases raw with blank | ⟨visible, opened⟩ | entry
  · have none : ¬ IsEntry raw := fun entry => entry.1 blank
    rw [scanLine_blank blank, if_neg fun both => none both.1, List.append_nil]
    exact iff_of_true ⟨scan, rfl, held⟩ fun entry => absurd entry none
  · have none : ¬ IsEntry raw := fun entry => entry.2 opened
    rw [scanLine_header visible opened, if_neg fun both => none both.1, List.append_nil]
    exact iff_of_true ⟨_, rfl, held⟩ fun entry => absurd entry none
  · rw [entry_options_iff exclusive entry, defineMacro_isOk, flagged, flagged, held]
    simp only [entry, true_and, true_implies, LineRead]
    apply and_congr_right
    intro _
    by_cases build : headed .buildOptions front = true
    · obtain ⟨option, read, _⟩ := formed entry build
      rw [if_pos build, if_pos build, addOption_iff _ read]
      simp [build, read]
    · rw [if_neg build, if_neg build, List.append_nil]
      exact iff_of_true rfl fun other => absurd other build

theorem options_verbatim_iff {text : Text} (formed : WellFormed text) : Verbatim setup text ↔ LinesRead setup text := by
  have start : ∃ scan, scanLines setup [] = .ok scan ∧ scan.ccOptions = wantedOptions setup [] := ⟨_, rfl, rfl⟩
  have lines : LinesRead setup text ↔
      ∀ front raw, At (readlines text) front raw → IsEntry raw → LineRead setup front raw := by
    constructor
    · intro read front raw inside entry
      exact ⟨read.definitions front raw inside entry, read.options front raw inside entry⟩
    · intro read
      exact ⟨fun front raw inside entry => (read front raw inside entry).1,
        fun front raw inside entry => (read front raw inside entry).2⟩
  have fronts := @fronts_iff Text (readlines text)
    (fun front => ∃ scan, scanLines setup front = .ok scan ∧ scan.ccOptions = wantedOptions setup front) start
  rw [lines]
  constructor
  · intro verbatim front raw inside
    obtain ⟨scan, ran, held⟩ := verbatim.throughout front ((List.prefix_append front [raw]).trans inside)
    exact (line_kept_iff ran held (formed front raw inside)).mp (verbatim.throughout _ inside)
  · intro read
    have throughout := fronts.mpr ?_
    · exact ⟨throughout _ List.prefix_rfl, throughout⟩
    · intro front raw inside before
      obtain ⟨scan, ran, held⟩ := before
      exact (line_kept_iff ran held (formed front raw inside)).mpr (read front raw inside)

def quietText : Text := "[BuildOptions]\nGCC:*_*_X64_CC_FLAGS = -O2 # size\nMSFT:*_*_*_CC_FLAGS == /a==b\n".toList

/-- One option of the host and one of another family. -/
theorem quiet_verbatim : Verbatim plainSetup quietText ↔ LinesRead plainSetup quietText :=
  options_verbatim_iff (by decide)

def defineText : Text := "[BuildOptions]\nGCC:*_*_*_CC_FLAGS = -DA==1\nGCC:*_*_*_CC_PATH = gcc\n".toList

/-- A value with a double assignment loses its beginning, and the path of the
compiler becomes an option. -/
theorem define_value_lost :
    WellFormed defineText ∧ wantedOptions plainSetup (readlines defineText) = "-DNO_QSTR -DA==1".toList ∧
    (scanInf plainSetup defineText).toOption.map Scan.ccOptions = some "-DNO_QSTR 1 gcc".toList ∧
    ¬ Verbatim plainSetup defineText := by
  refine ⟨by decide, by decide, by decide, ?_⟩
  intro verbatim
  obtain ⟨scan, ended, options⟩ := verbatim.result
  have collected : (scanInf plainSetup defineText).toOption.map Scan.ccOptions = some "-DNO_QSTR 1 gcc".toList := by decide
  rw [ended] at collected
  have same : scan.ccOptions = "-DNO_QSTR 1 gcc".toList := Option.some.inj collected
  rw [options] at same
  exact absurd same (by decide)

end Scan

end SblPayload.Proofs.CompilerFlags
