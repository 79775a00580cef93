import Mathlib.Data.List.Nodup
import SblPayload.Proofs.InfDescription
import SblPayload.Proofs.CompilerFlags

/-! What a description of an INF file says is what the scan reads, from any layout of
it. -/

namespace SblPayload.Proofs.InfRoundTrip
open Library Text Genhdr Template MacroExpansion InfSections SectionHeaders CompilerFlags InfDescription

/-! What each entry does to the scan, in the scan's own terms. -/

section Lines
variable (setup : Setup)

def optionFlags (item : OptionItem) : Text :=
  if hostFamily setup item.family.text ∧ (item.arch = setup.arch ∨ item.arch = ['*']) ∧ item.tool = "CC".toList then
    ' ' :: item.value
  else []

def readEntry {kind : Kind} (scan : Scan) : Entry kind → Scan
  | .define definition => { scan with macros := setItem definition.name definition.value scan.macros }
  | .setting _ _ => scan
  | .source item =>
    let lists := addSource setup (scan.srcFiles, scan.incPaths) (replaceMacro item.path.text scan.macros)
    { scan with srcFiles := lists.1, incPaths := lists.2 }
  | .option item => { scan with ccOptions := scan.ccOptions ++ optionFlags setup item }
  | .package path => { scan with pkgFiles := addPackages setup scan.pkgFiles path.text }

/-- The section that is read, none for one of another kind. -/
def entered (reading : Option Kind) (scan : Scan) : Scan :=
  { scan with
    inDefSection := reading = some .defines
    inSrcSection := reading = some .sources
    inBldSection := reading = some .buildOptions
    inPkgSection := reading = some .packages }

def readSection (scan : Scan) : Section → Scan
  | .known kind _ entries => entered (some kind) (entries.foldl (readEntry setup) scan)
  | .other _ _ => entered none scan

end Lines

section Reading

theorem defineMacro_text (definition : Definition) (macros : List (Text × Text)) :
    defineMacro macros definition.text = .ok (setItem definition.name definition.value macros) := by
  have cut : splitOnce ['='] (definition.text.drop 6) =
      some (' ' :: (definition.name ++ [' ']), ' ' :: definition.value) := by
    have free : '=' ∉ ' ' :: (definition.name ++ [' ']) := by
      simp [definition.unsplit]
    have after : definition.text.drop 6 = ' ' :: (definition.name ++ [' ']) ++ '=' :: (' ' :: definition.value) := by
      have keyword : keyword.length = 6 := rfl
      have sign : " = ".toList = [' ', '=', ' '] := rfl
      rw [Definition.text, List.append_assoc, List.drop_left' keyword, sign]
      simp
    rw [after]
    exact splitOnce_at free _
  have keyword : startswith definition.text "DEFINE ".toList = true := rfl
  have name := definition.nameWritten.solid.strip_padded [' '] [' '] rfl rfl
  have value := definition.valueWritten.solid.strip_padded [' '] [] rfl rfl
  rw [defineMacro, keyword, if_pos rfl, cut]
  dsimp only
  rw [List.append_nil] at value
  rw [← List.singleton_append, ← List.append_assoc, name, ← List.singleton_append, value]

theorem sourceEntry_text (item : SourceItem) (macros : List (Text × Text)) :
    sourceEntry macros item.text = replaceMacro item.path.text macros := by
  obtain ⟨path, features, unsplit, written⟩ := item
  unfold sourceEntry
  congr 1
  cases features with
  | none =>
    change strip (before '|' path.text) = path.text
    rw [before_free unsplit, path.written.solid.strip_eq]
  | some features =>
    have free : '|' ∉ path.text ++ [' '] := by
      simp [unsplit]
    have opened : (SourceItem.mk path (some features) unsplit written).text = (path.text ++ [' ']) ++ '|' :: (' ' :: features) := by
      simp [SourceItem.text]
    rw [opened, before_mark free]
    exact path.written.solid.strip_padded [] [' '] rfl rfl

theorem fields_read (item : OptionItem) :
    split '_' (strip (item.key ++ [' '])) = [item.target, item.tag, item.arch, item.tool, item.attr] := by
  have key := item.key_written.solid.strip_padded [] [' '] rfl rfl
  rw [List.nil_append] at key
  rw [key, split_eq_splitOn]
  exact List.splitOn_intercalate _ (fun field member => (item.fields field member).2.1) (List.cons_ne_nil _ _)

theorem key_free (item : OptionItem) : '=' ∉ item.key ++ [' '] := by
  have fields := fun field member => (item.fields field member).2.2
  simp only [List.forall_mem_cons] at fields
  simp [OptionItem.key, fields]

/-- The assignment is found, the value stays whole. -/
theorem cut_item (item : OptionItem) :
    cutOption (item.key ++ ((if item.double then " == ".toList else " = ".toList) ++ item.value)) =
      some (item.key ++ [' '], ' ' :: item.value) := by
  cases double : item.double with
  | true =>
    rw [← cut_double (key_free item)]
    simp
  | false =>
    have after := double_after (key_free item) (rfl : startswith (' ' :: item.value) ['='] = false)
    have none : splitOnce ['=', '='] (' ' :: item.value) = none := by
      rw [splitOnce_other, item.whole double, Option.map_none]
      intro starts
      exact absurd (List.cons_prefix_cons.mp starts).1 (by decide)
    rw [none, Option.map_none] at after
    have found := splitOnce_at (key_free item) (' ' :: item.value)
    simp only [List.append_assoc, List.singleton_append] at after found
    simp [cutOption, after, found]

theorem addOption_text (setup : Setup) (item : OptionItem) (ccOptions : Text) :
    addOption setup ccOptions item.text = .ok (ccOptions ++ optionFlags setup item) := by
  have opened : splitOnce [':'] item.text = some (item.family.text,
      item.key ++ ((if item.double then " == ".toList else " = ".toList) ++ item.value)) := by
    rw [← splitOnce_at item.unsplit]
    simp [OptionItem.text]
  have value := item.valueWritten.solid.strip_padded [' '] [] rfl rfl
  rw [List.append_nil, List.singleton_append] at value
  rw [addOption, opened]
  dsimp only
  rw [item.family.written.solid.strip_eq]
  have cutAt (rest : Text) : (splitOnce ['=', '='] rest).or (splitOnce ['='] rest) = cutOption rest := rfl
  rw [cutAt, cut_item item]
  dsimp only
  rw [fields_read item, value, optionFlags]
  dsimp only
  by_cases host : hostFamily setup item.family.text = true
  · rw [if_pos host]
    by_cases compiler : (item.arch = setup.arch ∨ item.arch = ['*']) ∧ item.tool = "CC".toList
    · rw [if_pos compiler, if_pos ⟨host, compiler⟩]
    · rw [if_neg compiler, if_neg fun both => compiler both.2, List.append_nil]
  · rw [if_neg host, if_neg fun both => host both.1, List.append_nil]

end Reading

section Scanning
variable {setup : Setup} {scan : Scan} {kind : Kind}

/-- One entry of a section of its kind. -/
theorem scanLine_entry (entry : Entry kind) :
    scanLine setup (entered (some kind) scan) entry.text = .ok (entered (some kind) (readEntry setup scan entry)) := by
  have clean := clean_written entry.text_written
  have plain : entry.text.head? ≠ some '[' := of_decide_eq_false entry.text_entry
  rw [scanLine, clean, if_neg entry.text_written.solid.some, if_neg plain]
  cases entry with
  | define definition =>
    change (defineMacro scan.macros definition.text >>= _) = _
    rw [defineMacro_text]
    rfl
  | setting line other =>
    have kept : defineMacro scan.macros line.text = .ok scan.macros := by
      rw [defineMacro, other]
      exact if_neg (by decide)
    change (defineMacro scan.macros line.text >>= _) = _
    rw [kept]
    rfl
  | source item =>
    have entry := sourceEntry_text item scan.macros
    change Except.ok { entered (some .sources) scan with
      srcFiles := (addSource setup (scan.srcFiles, scan.incPaths) (sourceEntry scan.macros item.text)).1
      incPaths := (addSource setup (scan.srcFiles, scan.incPaths) (sourceEntry scan.macros item.text)).2 } = _
    rw [entry]
    rfl
  | option item =>
    change (addOption setup scan.ccOptions item.text >>= _) = _
    rw [addOption_text]
    rfl
  | package path => rfl

/-- A header begins like its own kind, and like no other. -/
theorem opening_starts (kind other : Kind) (rest : Text) :
    startswith (kind.opening ++ rest) other.opening = decide (some kind = some other) := by
  rw [startswith, Bool.eq_iff_iff, List.isPrefixOf_iff_prefix, decide_eq_true_iff, Option.some.injEq]
  constructor
  · intro starts
    have nested := List.prefix_or_prefix_of_prefix starts (List.prefix_append _ rest)
    revert nested
    cases kind <;> cases other <;> decide
  · rintro rfl
    exact List.prefix_append _ _

/-- A header sets the flags for its kind. -/
theorem scanLine_known {suffix : Text} (written : Written (kind.opening ++ suffix ++ [']'])) :
    scanLine setup scan (kind.opening ++ suffix ++ [']']) = .ok (entered (some kind) scan) := by
  have clean := clean_written written
  have opened : isHeader (kind.opening ++ suffix ++ [']']) := by cases kind <;> rfl
  rw [scanLine_header (clean.symm ▸ written.solid.some) (clean.symm ▸ opened), clean, List.append_assoc, enterSection]
  have starts (other : Kind) := opening_starts kind other (suffix ++ [']'])
  have defines := starts .defines
  have sources := starts .sources
  have options := starts .buildOptions
  have packages := starts .packages
  unfold entered
  rw [← defines, ← sources, ← options, ← packages]
  rfl

theorem scanLine_other {title : Text} (written : Written ('[' :: title ++ [']']))
    (other : ∀ kind : Kind, startswith ('[' :: title ++ [']']) kind.opening = false) :
    scanLine setup scan ('[' :: title ++ [']']) = .ok (entered none scan) := by
  have clean := clean_written written
  have opened : isHeader ('[' :: title ++ [']']) := rfl
  have defines := other .defines
  have sources := other .sources
  have options := other .buildOptions
  have packages := other .packages
  unfold Kind.opening at defines sources options packages
  dsimp only at defines sources options packages
  rw [scanLine_header (clean.symm ▸ written.solid.some) (clean.symm ▸ opened), clean, enterSection, defines, sources,
    options, packages]
  rfl

/-- In a section of another kind nothing is read. -/
theorem scanLine_ignored (line : Line) : scanLine setup (entered none scan) line.text = .ok (entered none scan) := by
  have plain : line.text.head? ≠ some '[' := of_decide_eq_false line.entry
  rw [scanLine, clean_written line.written, if_neg line.written.solid.some, if_neg plain]
  rfl

theorem entries_read (entries : List (Entry kind)) :
    (entries.map Entry.text).foldlM (scanLine setup) (entered (some kind) scan) =
      .ok (entered (some kind) (entries.foldl (readEntry setup) scan)) := by
  induction entries generalizing scan with
  | nil => rfl
  | cons entry entries ih =>
    rw [List.map_cons, List.foldlM_cons, scanLine_entry]
    exact ih

theorem section_read (part : Section) (scan : Scan) : part.lines.foldlM (scanLine setup) scan = .ok (readSection setup scan part) := by
  have written := lines_written part
  cases part with
  | known kind suffix entries =>
    rw [Section.lines, List.foldlM_cons, scanLine_known (written _ List.mem_cons_self)]
    exact entries_read entries
  | other title lines =>
    rw [Section.lines, List.foldlM_cons, scanLine_other (written _ List.mem_cons_self) title.property.2]
    change (lines.map Line.text).foldlM (scanLine setup) (entered none scan) = .ok (entered none scan)
    clear written
    induction lines with
    | nil => rfl
    | cons line lines ih =>
      rw [List.map_cons, List.foldlM_cons, scanLine_ignored]
      exact ih

theorem sections_read (inf : Inf) (scan : Scan) :
    (inf.flatMap Section.lines).foldlM (scanLine setup) scan = .ok (inf.foldl (readSection setup) scan) := by
  induction inf generalizing scan with
  | nil => rfl
  | cons part inf ih =>
    rw [List.flatMap_cons, List.foldlM_append, section_read]
    exact ih _

/-- Only what is left of a line without its blanks and its comment is read. -/
theorem foldlM_clean {raws lines : List Text} (laid : (raws.map cleanLine).filter (· ≠ []) = lines)
    (fixed : ∀ line ∈ lines, cleanLine line = line) (scan : Scan) :
    raws.foldlM (scanLine setup) scan = lines.foldlM (scanLine setup) scan := by
  induction raws generalizing lines scan with
  | nil =>
    cases laid
    rfl
  | cons raw raws ih =>
    rw [List.map_cons] at laid
    by_cases blank : cleanLine raw = []
    · rw [List.filter_cons_of_neg (by simpa using blank)] at laid
      rw [List.foldlM_cons, scanLine_blank blank]
      exact ih laid fixed scan
    · rw [List.filter_cons_of_pos (by simpa using blank)] at laid
      cases laid
      have same : scanLine setup scan raw = scanLine setup scan (cleanLine raw) := by
        rw [scanLine, scanLine, fixed _ List.mem_cons_self]
      rw [List.foldlM_cons, List.foldlM_cons, same]
      congr 1
      funext next
      exact ih rfl (fun line member => fixed line (List.mem_cons_of_mem _ member)) next

end Scanning

theorem inf_lines_written (inf : Inf) : ∀ line ∈ inf.flatMap Section.lines, Written line := by
  intro line member
  obtain ⟨part, _, inside⟩ := List.mem_flatMap.mp member
  exact lines_written part line inside

/-- What is rendered has these lines. -/
theorem cleanLines_render (inf : Inf) : cleanLines (render inf) = inf.flatMap Section.lines := by
  have written := inf_lines_written inf
  rw [cleanLines, render, readlines_lines fun line member => (written line member).solid.single, List.map_map]
  have clean : (inf.flatMap Section.lines).map (cleanLine ∘ fun line => line ++ ['\n']) = inf.flatMap Section.lines :=
    List.map_congr_left (fun line member => clean_line (written line member)) |>.trans (List.map_id _)
  rw [clean]
  apply List.filter_eq_self.mpr
  intro line member
  exact decide_eq_true (written line member).solid.some

section Once
variable {α : Type} [BEq α] [LawfulBEq α]

theorem eraseDups_snoc (items : List α) (item : α) :
    (items ++ [item]).eraseDups = if item ∈ items then items.eraseDups else items.eraseDups ++ [item] := by
  rw [List.eraseDups_append]
  by_cases old : item ∈ items
  · simp [List.removeAll, old]
  · simp [List.removeAll, List.eraseDups_cons, old]

theorem nodup_eraseDups (items : List α) : items.eraseDups.Nodup := by
  induction items using List.reverseRecOn with
  | nil => exact List.nodup_nil
  | append_singleton items item ih =>
    rw [eraseDups_snoc]
    split
    next => exact ih
    next fresh =>
      refine List.nodup_append.mpr ⟨ih, List.nodup_cons.mpr ⟨List.not_mem_nil, List.nodup_nil⟩, ?_⟩
      intro other member last among same
      rw [same, List.mem_singleton.mp among] at member
      exact fresh (List.mem_eraseDups.mp member)

end Once

section Macros
variable {name value : Text} {known : Table}

theorem lastValue_snoc (other : Text) :
    lastValue (known ++ [(name, value)]) other = if other = name then some value else lastValue known other := by
  unfold lastValue
  rw [List.reverse_append, List.reverse_singleton, List.singleton_append]
  split
  next same => rw [same, valueOf_first]
  next different => exact valueOf_later different value _

/-- Assignment in a table that lists each name once. -/
theorem setItem_map {listed : List Text} (distinct : listed.Nodup) (held : Text → Text) :
    setItem name value (listed.map fun other => (other, held other)) =
      (if name ∈ listed then listed else listed ++ [name]).map fun other =>
        (other, if other = name then value else held other) := by
  induction listed with
  | nil => simp [setItem]
  | cons first listed ih =>
    obtain ⟨fresh, distinct⟩ := List.nodup_cons.mp distinct
    rw [List.map_cons, setItem]
    by_cases same : first = name
    · subst same
      have others : ∀ other ∈ listed, ¬ other = first := fun other member equal => fresh (equal ▸ member)
      rw [if_pos rfl, if_pos List.mem_cons_self, List.map_cons, if_pos rfl]
      congr 1
      exact List.map_congr_left fun other member => by rw [if_neg (others other member)]
    · rw [if_neg same, ih distinct]
      by_cases old : name ∈ listed
      · rw [if_pos old, if_pos (List.mem_cons_of_mem _ old), List.map_cons, if_neg same]
      · rw [if_neg old, if_neg (by simp [old, Ne.symm same]), List.cons_append, List.map_cons, if_neg same]

theorem setItem_table : setItem name value (table known) = table (known ++ [(name, value)]) := by
  have last (other : Text) : (if other = name then value else (lastValue known other).getD []) =
      (lastValue (known ++ [(name, value)]) other).getD [] := by
    rw [lastValue_snoc]
    split <;> rfl
  have named : names (known ++ [(name, value)]) = names known ++ [name] := List.map_append
  unfold table
  rw [setItem_map (nodup_eraseDups _), named, eraseDups_snoc]
  simp only [last, List.mem_eraseDups]

theorem names_table : names (table known) = (names known).eraseDups := by
  simp [names, table, Function.comp_def]

theorem valueOf_table : valueOf (table known) = lastValue known := by
  have distinct : (names (table known)).Nodup := by
    rw [names_table]
    exact nodup_eraseDups _
  funext name
  cases last : lastValue known name with
  | none =>
    rw [valueOf_none, names_table, List.mem_eraseDups]
    intro member
    refine valueOf_none.mp last ?_
    rwa [names, List.map_reverse, List.mem_reverse]
  | some value =>
    rw [valueOf_iff distinct, table, List.mem_map]
    have member := List.mem_reverse.mp (valueOf_mem last)
    exact ⟨name, List.mem_eraseDups.mpr (List.mem_map_of_mem member), by rw [last]; rfl⟩

end Macros

section Items
variable {front back : List Item} {item : Item}

theorem definitions_append : definitions (front ++ back) = definitions front ++ definitions back := List.filterMap_append

theorem definitions_single : definitions [item] = item.definition.toList := by
  unfold definitions
  rw [List.filterMap_cons]
  cases item.definition <;> rfl

theorem definitions_plain (items : List Item) : ∀ name ∈ names (definitions items), Plain name := by
  intro name member
  obtain ⟨pair, among, rfl⟩ := List.mem_map.mp member
  obtain ⟨⟨kind, entry⟩, _, defined⟩ := List.mem_filterMap.mp among
  cases entry with
  | define definition =>
    cases defined
    exact definition.plain
  | _ => cases defined

theorem usesFrom_append (known : Table) :
    usesFrom known (front ++ back) = usesFrom known front ++ usesFrom (known ++ definitions front) back := by
  induction front generalizing known with
  | nil => simp [usesFrom, definitions]
  | cons item front ih =>
    have first : definitions (item :: front) = item.definition.toList ++ definitions front := by
      rw [← definitions_single, ← definitions_append, List.singleton_append]
    rw [List.cons_append, usesFrom, usesFrom, ih, first, List.append_assoc, List.append_assoc]

theorem uses_snoc : usesFrom [] (front ++ [item]) =
    usesFrom [] front ++ item.source.toList.map fun path => (definitions front, path) := by
  simp [usesFrom_append, usesFrom]

theorem closed_before (closed : Closed (front ++ back)) : Closed front := by
  intro use member
  refine closed use ?_
  rw [usesFrom_append]
  exact List.mem_append_left _ member

theorem expanded_snoc : expanded (front ++ [item]) =
    expanded front ++ item.source.toList.map fun path => expandUse (definitions front, path) := by
  simp [expanded, uses_snoc, Function.comp_def]

theorem expanded_kept (none : item.source = none) : expanded (front ++ [item]) = expanded front := by
  rw [expanded_snoc, none, Option.toList_none, List.map_nil, List.append_nil]

end Items

section Saying
variable {setup : Setup} {front : List Item} {scan : Scan} {kind : Kind}

/-- The loop over the macros replaces the references at once. -/
theorem replaceMacro_use {path : Text} (closed : ∀ name ∈ references (expandUse (definitions front, path)),
    name ∉ names (definitions front)) :
    replaceMacro path (table (definitions front)) = expandUse (definitions front, path) := by
  have plain : ∀ name ∈ names (table (definitions front)), Plain name := by
    intro name member
    rw [names_table, List.mem_eraseDups] at member
    exact definitions_plain front name member
  rw [replaceMacro_closed plain, valueOf_table]
  · rfl
  · intro name refers
    rw [valueOf_table] at refers
    rw [names_table, List.mem_eraseDups]
    exact closed name (mem_references.mpr refers)

theorem addPackages_eraseDups (files : List Text) (line : Text) : addPackages setup files.eraseDups line =
    (files ++ (setup.pkgPaths.map fun pkgPath => setup.os.normpath (setup.os.join pkgPath line)).filter
      setup.pathExists).eraseDups := by
  unfold addPackages
  generalize setup.pkgPaths = paths
  induction paths generalizing files with
  | nil => simp
  | cons path paths ih =>
    rw [List.foldl_cons, List.map_cons]
    dsimp only
    generalize setup.os.normpath (setup.os.join path line) = pkg
    by_cases there : setup.pathExists pkg = true
    · have one : (if setup.pathExists pkg = true ∧ pkg ∉ files.eraseDups then files.eraseDups ++ [pkg]
          else files.eraseDups) = (files ++ [pkg]).eraseDups := by
        rw [eraseDups_snoc]
        by_cases old : pkg ∈ files
        · simp [old]
        · simp [old, there]
      rw [one, ih, List.filter_cons_of_pos there, List.append_assoc, List.singleton_append]
    · rw [if_neg fun both => there both.1, ih, List.filter_cons_of_neg there]

theorem optionFlags_eq (item : OptionItem) : optionFlags setup item = Item.flags setup ⟨.buildOptions, .option item⟩ := by
  have host : hostFamily setup item.family.text = true ↔ item.family.text = compilerFamily setup.os.name := by
    cases os : setup.os.name <;> simp [hostFamily, compilerFamily, os]
  simp only [optionFlags, Item.flags, host]

section Kept
variable {item : Item} (held : Says setup front scan)
include held

theorem macros_kept (none : item.definition = none) : scan.macros = table (definitions (front ++ [item])) := by
  rw [definitions_append, definitions_single, none, Option.toList_none, List.append_nil, held.macros]

theorem sources_kept (none : item.source = none) :
    scan.srcFiles = ((expanded (front ++ [item])).filter fun path => SourceSelection.EndsInC path).map (located setup) := by
  rw [expanded_kept none, held.sources]

theorem folders_kept (none : item.source = none) : scan.incPaths =
    (setup.infPath :: (expanded (front ++ [item])).map fun path => setup.os.dirname (located setup path)).eraseDups := by
  rw [expanded_kept none, held.folders]

theorem options_kept (none : item.flags setup = []) :
    scan.ccOptions = "-DNO_QSTR".toList ++ (front ++ [item]).flatMap (Item.flags setup) := by
  rw [List.flatMap_append, List.flatMap_singleton, none, List.append_nil, held.options]

theorem packages_kept (none : item.packages setup = []) : scan.pkgFiles =
    (((front ++ [item]).flatMap (Item.packages setup)).filter setup.pathExists).eraseDups := by
  rw [List.flatMap_append, List.flatMap_singleton, none, List.append_nil, held.packages]

end Kept

/-- An entry adds what it says, and leaves alone what it says nothing about. -/
theorem says_read (held : Says setup front scan) {entry : Entry kind} (closed : Closed (front ++ [⟨kind, entry⟩])) :
    Says setup (front ++ [⟨kind, entry⟩]) (readEntry setup scan entry) := by
  have macros := @macros_kept setup front scan ⟨kind, entry⟩ held
  have sources := @sources_kept setup front scan ⟨kind, entry⟩ held
  have folders := @folders_kept setup front scan ⟨kind, entry⟩ held
  have options := @options_kept setup front scan ⟨kind, entry⟩ held
  have packages := @packages_kept setup front scan ⟨kind, entry⟩ held
  cases entry with
  | define definition =>
    refine ⟨?_, sources rfl, folders rfl, options rfl, packages rfl⟩
    rw [definitions_append, definitions_single]
    exact (congrArg (setItem definition.name definition.value) held.macros).trans setItem_table
  | setting line other =>
    exact ⟨macros rfl, sources rfl, folders rfl, options rfl, packages rfl⟩
  | source item =>
    have use : (definitions front, item.path.text) ∈ usesFrom [] (front ++ [⟨.sources, .source item⟩]) := by
      rw [uses_snoc]
      exact List.mem_append_right _ (List.mem_singleton.mpr rfl)
    have replaced := replaceMacro_use (closed _ use)
    rw [← held.macros] at replaced
    refine ⟨macros rfl, ?_, ?_, options rfl, packages rfl⟩
    · change (addSource setup (scan.srcFiles, scan.incPaths) (replaceMacro item.path.text scan.macros)).1 = _
      rw [replaced, SourceSelection.addSource_sources, held.sources, expanded_snoc, List.filter_append, List.map_append]
      by_cases suffix : SourceSelection.EndsInC (expandUse (definitions front, item.path.text))
      · simp [Item.source, suffix, located]
      · simp [Item.source, suffix]
    · change (addSource setup (scan.srcFiles, scan.incPaths) (replaceMacro item.path.text scan.macros)).2 = _
      rw [replaced, held.folders, expanded_snoc, List.map_append, ← List.cons_append]
      refine Eq.trans ?_ (eraseDups_snoc _ _).symm
      simp only [addSource, List.mem_eraseDups]
      rfl
  | option item =>
    refine ⟨macros rfl, sources rfl, folders rfl, ?_, packages rfl⟩
    simp [readEntry, held.options, optionFlags_eq]
  | package path =>
    refine ⟨macros rfl, sources rfl, folders rfl, options rfl, ?_⟩
    simp [readEntry, held.packages, addPackages_eraseDups, Item.packages]

end Saying

section Running
variable {setup : Setup} {front : List Item} {scan : Scan} {kind : Kind}

theorem says_entered {reading : Option Kind} (held : Says setup front scan) : Says setup front (entered reading scan) :=
  ⟨held.macros, held.sources, held.folders, held.options, held.packages⟩

theorem says_entries {entries : List (Entry kind)} (held : Says setup front scan)
    (closed : Closed (front ++ entries.map fun entry => ⟨kind, entry⟩)) :
    Says setup (front ++ entries.map fun entry => ⟨kind, entry⟩) (entries.foldl (readEntry setup) scan) := by
  induction entries generalizing front scan with
  | nil =>
    rw [List.map_nil, List.append_nil]
    exact held
  | cons entry entries ih =>
    rw [List.map_cons, List.append_cons] at closed ⊢
    exact ih (says_read held (closed_before closed)) closed

theorem says_sections {inf : Inf} (held : Says setup front scan) (closed : Closed (front ++ items inf)) :
    Says setup (front ++ items inf) (inf.foldl (readSection setup) scan) := by
  induction inf generalizing front scan with
  | nil =>
    rw [items, List.flatMap_nil, List.append_nil]
    exact held
  | cons part inf ih =>
    have parts : items (part :: inf) = part.items ++ items inf := List.flatMap_cons
    rw [parts, ← List.append_assoc] at closed ⊢
    refine ih ?_ closed
    cases part with
    | known kind suffix entries => exact says_entered (says_entries held (closed_before closed))
    | other title lines =>
      rw [Section.items, List.append_nil]
      exact says_entered held

end Running

def folder : Definition := ⟨"EXT".toList, "Extra".toList, by decide, by decide, by decide, by decide⟩

def mainSource : SourceItem :=
  ⟨⟨"$(EXT)/main.c".toList, by decide, by decide⟩, some "GCC".toList, by decide, by decide⟩

def optimize : OptionItem :=
  ⟨⟨"GCC".toList, by decide, by decide⟩, "*".toList, "*".toList, "X64".toList, "CC".toList, "FLAGS".toList, false,
    "-O2 -DA=1".toList, by decide, by decide, by decide, by decide⟩

def sample : Inf :=
  [.known .defines ⟨[], by decide⟩ [.setting ⟨"FILE_GUID = A".toList, by decide, by decide⟩ (by decide), .define folder],
    .other ⟨"Guids".toList, by decide, fun kind => by cases kind <;> rfl⟩ [⟨"gGuid".toList, by decide, by decide⟩],
    .known .sources ⟨".X64".toList, by decide⟩ [.source mainSource],
    .known .buildOptions ⟨[], by decide⟩ [.option optimize],
    .known .packages ⟨[], by decide⟩ [.package ⟨"Pkg/Pkg.dec".toList, by decide, by decide⟩]]

end SblPayload.Proofs.InfRoundTrip
