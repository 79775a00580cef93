import SblPayload.Library.Collect
import SblPayload.Proofs.SectionHeaders

/-! The sources that are scanned, against those that apply to the machine and the
toolchain by the grammar of headers and entries. -/

namespace SblPayload.Proofs.SourceSelection
open Library Text Genhdr InfSections SectionHeaders

/-- A `Sources` tag without a modifier, for all machines or for this one. -/
def sourcesTag (arch : Text) : List Text → Bool
  | [name] => name = "Sources".toList
  | [name, modifier] => name = "Sources".toList ∧ (modifier = "common".toList ∨ modifier = arch)
  | _ => false

def sourcesApply (arch header : Text) : Bool := (tags header).any (sourcesTag arch)

variable (setup : Setup)

/-- The field after the bar, judged as the families of build options are. -/
def familyApplies (line : Text) : Bool :=
  match (split '|' line)[1]? with
  | none => true
  | some field => strip field = [] || strip field = ['*'] || hostFamily setup (strip field)

/-- The macros after the first lines of a file. -/
def macrosAt (front : List Text) : List (Text × Text) :=
  match scanLines setup front with
  | .ok scan => scan.macros
  | .error _ => []

def entryAt (front : List Text) (raw : Text) : Text := sourceEntry (macrosAt setup front) (cleanLine raw)

/-- The path an entry stands for. -/
def pathAt (front : List Text) (raw : Text) : Text :=
  setup.os.normpath (setup.os.join setup.infPath (entryAt setup front raw))

/-- The suffix is compared as the script does, in either case. -/
def EndsInC (path : Text) : Prop := lower (path.drop (path.length - 2)) = ".c".toList

instance (path : Text) : Decidable (EndsInC path) :=
  inferInstanceAs (Decidable (lower (path.drop (path.length - 2)) = ".c".toList))

/-- What a line adds to the sources when the entries are chosen by a test. -/
def added (takes : List Text → Text → Bool) (front : List Text) (raw : Text) : List Text :=
  if IsEntry raw ∧ takes front raw then [pathAt setup front raw] else []

/-- The line applies by its header and by its family. -/
def applies (front : List Text) (raw : Text) : Bool :=
  (header front).any (sourcesApply setup.arch) && familyApplies setup (cleanLine raw)

/-- The line applies and its path is that of a C source. -/
def wanted (front : List Text) (raw : Text) : Bool := applies setup front raw && EndsInC (pathAt setup front raw)

def wantedSources (raws : List Text) : List Text := collect (added setup (wanted setup)) raws

/-- The sources are right after every line of the file, and so at its end. -/
structure Selects (text : Text) (scan : Scan) : Prop where
  result : scan.srcFiles = wantedSources setup (readlines text)
  throughout : ∀ front, front <+: readlines text → ∀ before, scanLines setup front = .ok before →
    before.srcFiles = wantedSources setup front

/-- The header begins like one of sources exactly when the entry applies. Where only
one of the entry and its path ends in `.c`, the entry does not apply, or stands under
another header. -/
structure EntryAgrees (front : List Text) (raw : Text) : Prop where
  judged : EndsInC (entryAt setup front raw) → EndsInC (pathAt setup front raw) →
    headed .sources front = applies setup front raw
  unseen : EndsInC (pathAt setup front raw) → ¬ EndsInC (entryAt setup front raw) → applies setup front raw = false
  mistaken : EndsInC (entryAt setup front raw) → ¬ EndsInC (pathAt setup front raw) → headed .sources front = false

def SourcesAgree (text : Text) : Prop := ∀ front raw, At (readlines text) front raw → IsEntry raw →
  EntryAgrees setup front raw

/-- The test of the script: of the header by its beginning, of the entry as it is
written. -/
def scanned (front : List Text) (raw : Text) : Bool := headed .sources front && EndsInC (entryAt setup front raw)

def sourcesOf (front : List Text) : List Text :=
  match scanLines setup front with
  | .ok scan => scan.srcFiles
  | .error _ => []

section Lines
variable {setup : Setup}

theorem sourcesOf_ran {front : List Text} {scan : Scan} (ran : scanLines setup front = .ok scan) :
    sourcesOf setup front = scan.srcFiles := by
  rw [sourcesOf, ran]

theorem macrosAt_ran {front : List Text} {scan : Scan} (ran : scanLines setup front = .ok scan) :
    macrosAt setup front = scan.macros := by
  rw [macrosAt, ran]

theorem addSource_sources (lists : List Text × List Text) (line : Text) :
    (addSource setup lists line).1 =
      lists.1 ++ if EndsInC line then [setup.os.normpath (setup.os.join setup.infPath line)] else [] := by
  by_cases suffix : EndsInC line
  · rw [if_pos suffix]
    exact if_pos suffix
  · rw [if_neg suffix, List.append_nil]
    exact if_neg suffix

/-- A line adds its source when the header above begins like one of sources. -/
theorem sourcesOf_snoc {front : List Text} {raw : Text} {after : Scan}
    (ended : scanLines setup (front ++ [raw]) = .ok after) :
    sourcesOf setup (front ++ [raw]) = sourcesOf setup front ++ added setup (scanned setup) front raw := by
  obtain ⟨before, ran, stepped⟩ := scanLines_last ended
  obtain ⟨exclusive, flags⟩ := scanLines_sections ran
  rw [sourcesOf_ran ended, sourcesOf_ran ran, added, scanned]
  rcases line_cases raw with blank | ⟨visible, opened⟩ | entry
  · rw [scanLine_blank blank] at stepped
    cases stepped
    rw [if_neg (fun inside => inside.1.1 blank), List.append_nil]
  · rw [scanLine_header visible opened] at stepped
    cases stepped
    rw [if_neg (fun inside => inside.1.2 opened), List.append_nil]
    rfl
  · have body := scanLine_body exclusive entry.1 entry.2 stepped
    have lists := congrArg Prod.fst body.sources
    rw [flags .sources] at lists
    rw [pathAt, entryAt, macrosAt_ran ran]
    by_cases above : headed .sources front
    · rw [if_pos above, addSource_sources] at lists
      simp only [entry, above, Bool.true_and, true_and, decide_eq_true_eq]
      exact lists
    · rw [if_neg above] at lists
      simp only [above, Bool.false_and, Bool.false_eq_true, and_false, ↓reduceIte, List.append_nil]
      exact lists

theorem added_eq_iff {takes other : List Text → Text → Bool} {front : List Text} {raw : Text} :
    added setup takes front raw = added setup other front raw ↔ (IsEntry raw → takes front raw = other front raw) := by
  unfold added
  by_cases entry : IsEntry raw
  · simp only [entry, true_and, true_implies]
    cases takes front raw <;> cases other front raw <;> simp
  · simp [entry]

theorem scanned_eq_wanted_iff {front : List Text} {raw : Text} :
    scanned setup front raw = wanted setup front raw ↔ EntryAgrees setup front raw := by
  unfold scanned wanted
  constructor
  · intro same
    constructor
    · intro entry path
      simpa only [entry, path, decide_true, Bool.and_true] using same
    · intro path entry
      simpa only [entry, path, decide_true, decide_false, Bool.and_true, Bool.and_false] using same.symm
    · intro entry path
      simpa only [entry, path, decide_true, decide_false, Bool.and_true, Bool.and_false] using same
  · intro ⟨judged, unseen, mistaken⟩
    by_cases entry : EndsInC (entryAt setup front raw)
    · by_cases path : EndsInC (pathAt setup front raw)
      · rw [judged entry path]
        simp only [entry, path]
      · rw [mistaken entry path]
        simp only [path, decide_false, Bool.and_false, Bool.false_and]
    · by_cases path : EndsInC (pathAt setup front raw)
      · rw [unseen path entry]
        simp only [entry, decide_false, Bool.and_false, Bool.false_and]
      · simp only [entry, path, decide_false, Bool.and_false]

end Lines

def machineText : Text := "[Sources.IA32]\na32.c\n[Sources]\nall.c\nwin.c | MSFT\n".toList

def machineScan : Scan :=
  { inSrcSection := true, srcFiles := ["/m/a32.c".toList, "/m/all.c".toList, "/m/win.c".toList]
    incPaths := ["/m".toList] }

def slashText : Text := "[Sources]\na.c/\n".toList

def slashScan : Scan := { inSrcSection := true, incPaths := ["/m".toList] }

def commonText : Text := "[Sources, Sources.X64]\nall.c\ngnu.c | GCC\n".toList

def commonScan : Scan :=
  { inSrcSection := true, srcFiles := ["/m/all.c".toList, "/m/gnu.c".toList], incPaths := ["/m".toList] }

end SblPayload.Proofs.SourceSelection
