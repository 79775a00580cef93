import SblPayload.Library.Layout
import SblPayload.Proofs.MacroExpansion
import SblPayload.Proofs.SourceSelection

/-! What is written in an INF file, apart from how it is laid out, and what it says:
the last value of each macro, each folder and package once, and the sources and flags
in the order of their lines. -/

namespace SblPayload.Proofs.InfDescription
open Library Text Genhdr Template MacroExpansion InfSections SectionHeaders SourceSelection

/-- Text that can stand in a line: no comment begins in it. -/
structure Written (text : Text) : Prop where
  solid : Solid text
  comment : '#' ∉ text

instance (text : Text) : Decidable (Written text) :=
  decidable_of_iff (Solid text ∧ '#' ∉ text)
    ⟨fun held => ⟨held.1, held.2⟩, fun written => ⟨written.solid, written.comment⟩⟩

/-- Text between other texts of a line. -/
structure Inner (text : Text) : Prop where
  single : '\n' ∉ text ∧ '\r' ∉ text
  comment : '#' ∉ text

instance (text : Text) : Decidable (Inner text) :=
  decidable_of_iff (('\n' ∉ text ∧ '\r' ∉ text) ∧ '#' ∉ text)
    ⟨fun held => ⟨held.1, held.2⟩, fun inner => ⟨inner.single, inner.comment⟩⟩

/-- A line that is not a header. -/
structure Line where
  text : Text
  written : Written text
  entry : isHeader text = false

structure Definition where
  name : Text
  value : Text
  nameWritten : Written name
  valueWritten : Written value
  unsplit : '=' ∉ name
  plain : Plain name

structure SourceItem where
  path : Line
  features : Option Text
  unsplit : '|' ∉ path.text
  featuresWritten : ∀ text ∈ features, Written text

/-- The five fields of the name, and the value after a single or a double assignment. -/
structure OptionItem where
  family : Line
  target : Text
  tag : Text
  arch : Text
  tool : Text
  attr : Text
  double : Bool
  value : Text
  unsplit : ':' ∉ family.text
  fields : ∀ field ∈ [target, tag, arch, tool, attr], Written field ∧ '_' ∉ field ∧ '=' ∉ field
  valueWritten : Written value
  whole : double = false → splitOnce ['=', '='] value = none

inductive Entry : Kind → Type where
  | define (definition : Definition) : Entry .defines
  | setting (line : Line) (other : startswith line.text "DEFINE ".toList = false) : Entry .defines
  | source (item : SourceItem) : Entry .sources
  | option (item : OptionItem) : Entry .buildOptions
  | package (path : Line) : Entry .packages

inductive Section where
  | known (kind : Kind) (suffix : { suffix : Text // Inner suffix }) (entries : List (Entry kind))
  | other (title : { title : Text // Inner title ∧ ∀ kind : Kind, startswith ('[' :: title ++ [']']) kind.opening = false })
    (lines : List Line)

abbrev Inf := List Section

section Rendering

def OptionItem.key (item : OptionItem) : Text :=
  ['_'].intercalate [item.target, item.tag, item.arch, item.tool, item.attr]

def keyword : Text := "DEFINE".toList

def Definition.text (definition : Definition) : Text :=
  keyword ++ (' ' :: definition.name ++ " = ".toList) ++ definition.value

def SourceItem.text (item : SourceItem) : Text :=
  match item.features with
  | none => item.path.text
  | some features => item.path.text ++ " | ".toList ++ features

def OptionItem.text (item : OptionItem) : Text :=
  item.family.text ++ (':' :: item.key ++ (if item.double then " == ".toList else " = ".toList)) ++ item.value

def Entry.text {kind : Kind} : Entry kind → Text
  | .define definition => definition.text
  | .setting line _ => line.text
  | .source item => item.text
  | .option item => item.text
  | .package path => path.text

def Section.lines : Section → List Text
  | .known kind suffix entries => (kind.opening ++ suffix.val ++ [']']) :: entries.map Entry.text
  | .other title lines => ('[' :: title.val ++ [']']) :: lines.map Line.text

def render (inf : Inf) : Text := (inf.flatMap Section.lines).flatMap fun line => line ++ ['\n']

end Rendering

section Texts
variable {text front middle last : Text}

theorem Written.around (opened : Written front) (inner : Inner middle) (closed : Written last) :
    Written (front ++ middle ++ last) := by
  refine ⟨opened.solid.around closed.solid inner.single, ?_⟩
  simp only [List.mem_append, not_or]
  exact ⟨⟨opened.comment, inner.comment⟩, closed.comment⟩

theorem Written.inner (written : Written text) : Inner text := ⟨written.solid.single, written.comment⟩

theorem Inner.append (first : Inner front) (second : Inner last) : Inner (front ++ last) := by
  constructor
  · simp only [List.mem_append, not_or]
    exact ⟨⟨first.single.1, second.single.1⟩, first.single.2, second.single.2⟩
  · simp only [List.mem_append, not_or]
    exact ⟨first.comment, second.comment⟩

theorem clean_written (written : Written text) : cleanLine text = text := by
  rw [cleanLine, before_free written.comment, written.solid.strip_eq]

/-- The end of the line is a blank. -/
theorem clean_line (written : Written text) : cleanLine (text ++ ['\n']) = text := by
  have free : '#' ∉ text ++ ['\n'] := by
    rw [List.mem_append, not_or]
    exact ⟨written.comment, by decide⟩
  have padded := written.solid.strip_padded [] ['\n'] rfl rfl
  rw [cleanLine, before_free free]
  exact padded

theorem OptionItem.key_written (item : OptionItem) : Written item.key := by
  obtain ⟨target, tag, arch, tool, attr⟩ : Written item.target ∧ Written item.tag ∧ Written item.arch ∧ Written item.tool ∧
      Written item.attr := by
    have fields := fun field member => (item.fields field member).1
    simpa using fields
  have mark : Inner ['_'] := by decide
  have inner := ((((mark.append tag.inner).append mark).append arch.inner).append mark).append tool.inner |>.append mark
  have whole := target.around inner attr
  simpa [OptionItem.key] using whole

theorem Entry.text_written {kind : Kind} (entry : Entry kind) : Written entry.text := by
  cases entry with
  | define definition =>
    have keyword : Written keyword := by decide
    have space : Inner [' '] := by decide
    have sign : Inner " = ".toList := by decide
    exact keyword.around ((space.append definition.nameWritten.inner).append sign) definition.valueWritten
  | setting line other => exact line.written
  | source item =>
    obtain ⟨path, features, unsplit, written⟩ := item
    cases features with
    | none => exact path.written
    | some features => exact path.written.around (by decide) (written features rfl)
  | option item =>
    have colon : Inner [':'] := by decide
    have sign : Inner (if item.double then " == ".toList else " = ".toList) := by
      cases item.double <;> decide
    exact item.family.written.around ((colon.append item.key_written.inner).append sign) item.valueWritten
  | package path => exact path.written

theorem header_append (line : Line) (rest : Text) : isHeader (line.text ++ rest) = false := by
  obtain ⟨text, written, entry⟩ := line
  cases text with
  | nil => exact absurd rfl written.solid.some
  | cons char text => exact entry

theorem Entry.text_entry {kind : Kind} (entry : Entry kind) : isHeader entry.text = false := by
  cases entry with
  | define definition => rfl
  | setting line other => exact line.entry
  | source item =>
    obtain ⟨path, features, unsplit, written⟩ := item
    cases features with
    | none => exact path.entry
    | some features =>
      change isHeader (path.text ++ _ ++ _) = false
      rw [List.append_assoc]
      exact header_append path _
  | option item =>
    change isHeader (item.family.text ++ _ ++ _) = false
    rw [List.append_assoc]
    exact header_append item.family _
  | package path => exact path.entry

theorem lines_written (part : Section) : ∀ line ∈ part.lines, Written line := by
  have bracket : Written [']'] := by decide
  cases part with
  | known kind suffix entries =>
    intro line member
    rcases List.mem_cons.mp member with rfl | inside
    · have opening : Written kind.opening := by cases kind <;> decide
      exact opening.around suffix.property bracket
    · obtain ⟨entry, _, rfl⟩ := List.mem_map.mp inside
      exact entry.text_written
  | other title lines =>
    intro line member
    rcases List.mem_cons.mp member with rfl | inside
    · have opening : Written ['['] := by decide
      exact opening.around title.property.1 bracket
    · obtain ⟨line, _, rfl⟩ := List.mem_map.mp inside
      exact line.written

end Texts

section Meaning
variable (setup : Setup)

abbrev Item := (kind : Kind) × Entry kind

def Section.items : Section → List Item
  | .known kind _ entries => entries.map fun entry => ⟨kind, entry⟩
  | .other _ _ => []

/-- The entries that are read, in their order. -/
def items (inf : Inf) : List Item := inf.flatMap Section.items

def Item.definition : Item → Option (Text × Text)
  | ⟨_, .define definition⟩ => some (definition.name, definition.value)
  | _ => none

def Item.source : Item → Option Text
  | ⟨_, .source item⟩ => some item.path.text
  | _ => none

def compilerFamily : OsName → Text
  | .nt => "MSFT".toList
  | .posix => "GCC".toList

/-- For the compiler of the host, and for the machine. -/
def Item.flags : Item → Text
  | ⟨_, .option item⟩ =>
    if item.family.text = compilerFamily setup.os.name ∧ (item.arch = setup.arch ∨ item.arch = ['*']) ∧
        item.tool = "CC".toList then
      ' ' :: item.value
    else []
  | _ => []

/-- A package is looked for in every search path. -/
def Item.packages : Item → List Text
  | ⟨_, .package path⟩ => setup.pkgPaths.map fun pkgPath => setup.os.normpath (setup.os.join pkgPath path.text)
  | _ => []

def definitions (items : List Item) : Table := items.filterMap Item.definition

/-- The later definition of a name counts. -/
def lastValue (definitions : Table) : Text → Option Text := valueOf definitions.reverse

/-- Each name where it is defined first, with its last value. -/
def table (definitions : Table) : Table :=
  (names definitions).eraseDups.map fun name => (name, (lastValue definitions name).getD [])

/-- Each source, with the definitions above it. -/
def usesFrom (known : Table) : List Item → List (Table × Text)
  | [] => []
  | item :: rest => (item.source.toList.map fun path => (known, path)) ++ usesFrom (known ++ item.definition.toList) rest

/-- The macros in the path of a source are replaced at once. -/
def expandUse (use : Table × Text) : Text := substitute (lastValue use.1) use.2

def expanded (items : List Item) : List Text := (usesFrom [] items).map expandUse

/-- No macro is left, and none comes about, when the macros in a path are replaced. -/
def Closed (items : List Item) : Prop :=
  ∀ use ∈ usesFrom [] items, ∀ name ∈ references (expandUse use), name ∉ names use.1

instance (items : List Item) : Decidable (Closed items) :=
  inferInstanceAs (Decidable (∀ use ∈ usesFrom [] items, ∀ name ∈ references (expandUse use), name ∉ names use.1))

def located (path : Text) : Text := setup.os.normpath (setup.os.join setup.infPath path)

/-- The result of a scan is what the entries say. -/
structure Says (items : List Item) (scan : Scan) : Prop where
  macros : scan.macros = table (definitions items)
  sources : scan.srcFiles = ((expanded items).filter fun path => EndsInC path).map (located setup)
  folders : scan.incPaths =
    (setup.infPath :: (expanded items).map fun path => setup.os.dirname (located setup path)).eraseDups
  options : scan.ccOptions = "-DNO_QSTR".toList ++ items.flatMap (Item.flags setup)
  packages : scan.pkgFiles = ((items.flatMap (Item.packages setup)).filter setup.pathExists).eraseDups

end Meaning

end SblPayload.Proofs.InfDescription
