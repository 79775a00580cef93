import SblPayload.Genhdr.InfScan

/-! The INF scan reads a file section kind by section kind. How the sections of
different kinds are interleaved, split, or separated by other sections does not
reach its results, as long as the macros are defined before they are used. -/

namespace SblPayload.Proofs.InfSections
open Library Text Genhdr

inductive Kind where
  | defines
  | sources
  | buildOptions
  | packages
deriving DecidableEq

def Kind.opening : Kind → Text
  | .defines => "[Defines".toList
  | .sources => "[Sources".toList
  | .buildOptions => "[BuildOptions".toList
  | .packages => "[Packages".toList

def isHeader (line : Text) : Bool := line.head? = some '['

def cleanLines (text : Text) : List Text := ((readlines text).map cleanLine).filter (· ≠ [])

def sectionLines (kind : Kind) : Bool → List Text → List Text
  | _, [] => []
  | inside, line :: rest =>
    if isHeader line then sectionLines kind (startswith line kind.opening) rest
    else if inside then line :: sectionLines kind inside rest
    else sectionLines kind inside rest

def kindLines (kind : Kind) (text : Text) : List Text := sectionLines kind false (cleanLines text)

/-- No section of definitions begins after a section of sources has begun. -/
def DefinesFirst (text : Text) : Prop :=
  ((cleanLines text).filter isHeader).Pairwise fun earlier later =>
    ¬ (startswith earlier Kind.sources.opening ∧ startswith later Kind.defines.opening)

instance (text : Text) : Decidable (DefinesFirst text) := by
  unfold DefinesFirst
  infer_instance

def inside (scan : Scan) : Kind → Bool
  | .defines => scan.inDefSection
  | .sources => scan.inSrcSection
  | .buildOptions => scan.inBldSection
  | .packages => scan.inPkgSection

def Exclusive (scan : Scan) : Prop := ∀ first second, inside scan first → inside scan second → first = second

theorem inside_enterSection (scan : Scan) (line : Text) (kind : Kind) :
    inside (enterSection scan line) kind = startswith line kind.opening := by
  cases kind <;> rfl

theorem exclusive_enterSection (scan : Scan) (line : Text) : Exclusive (enterSection scan line) := by
  intro first second firstHeld secondHeld
  rw [inside_enterSection, startswith, List.isPrefixOf_iff_prefix] at firstHeld secondHeld
  have nested := List.prefix_or_prefix_of_prefix firstHeld secondHeld
  revert nested
  cases first <;> cases second <;> decide

variable {setup : Setup}

/-- What one line that is not a header changes, section kind by section kind. -/
structure Body (setup : Setup) (scan after : Scan) (line : Text) : Prop where
  flags : ∀ kind, inside after kind = inside scan kind
  macros : (if inside scan .defines then defineMacro scan.macros line else .ok scan.macros) = .ok after.macros
  sources : (after.srcFiles, after.incPaths) =
    if inside scan .sources then addSource setup (scan.srcFiles, scan.incPaths) (sourceEntry scan.macros line)
    else (scan.srcFiles, scan.incPaths)
  options : (if inside scan .buildOptions then addOption setup scan.ccOptions line else .ok scan.ccOptions) =
    .ok after.ccOptions
  packages : after.pkgFiles =
    if inside scan .packages then addPackages setup scan.pkgFiles line else scan.pkgFiles

theorem bind_ok {ε α β : Type} {first : Except ε α} {next : α → Except ε β} {result : β}
    (ended : (first >>= next) = .ok result) : ∃ value, first = .ok value ∧ next value = .ok result := by
  cases first with
  | error error => cases ended
  | ok value => exact ⟨value, rfl, ended⟩

theorem scanLine_header {scan : Scan} {raw : Text} (nonempty : cleanLine raw ≠ []) (header : isHeader (cleanLine raw)) :
    scanLine setup scan raw = .ok (enterSection scan (cleanLine raw)) := by
  simp only [isHeader, decide_eq_true_eq] at header
  simp [scanLine, nonempty, header]

theorem outside_of_inside {scan : Scan} (exclusive : Exclusive scan) {kind other : Kind} (held : inside scan kind)
    (different : kind ≠ other) : inside scan other = false := by
  cases flag : inside scan other with
  | false => rfl
  | true => exact absurd (exclusive kind other held flag) different

theorem scanLine_body {scan after : Scan} {raw : Text} (exclusive : Exclusive scan) (nonempty : cleanLine raw ≠ [])
    (body : ¬ isHeader (cleanLine raw)) (ended : scanLine setup scan raw = .ok after) :
    Body setup scan after (cleanLine raw) := by
  simp only [isHeader, decide_eq_true_eq] at body
  simp only [scanLine, nonempty, body, ↓reduceIte] at ended
  obtain ⟨macros, defined, ended⟩ := bind_ok ended
  obtain ⟨options, added, ended⟩ := bind_ok ended
  cases ended
  by_cases source : scan.inSrcSection
  · have held : inside scan .sources = true := source
    have noDefine : scan.inDefSection = false := @outside_of_inside scan exclusive _ .defines held (by decide)
    have noOption : scan.inBldSection = false := @outside_of_inside scan exclusive _ .buildOptions held (by decide)
    have noPackage : scan.inPkgSection = false := @outside_of_inside scan exclusive _ .packages held (by decide)
    simp only [noDefine, noOption, Bool.false_eq_true, ↓reduceIte, Except.ok.injEq] at defined added
    subst defined added
    exact ⟨fun kind => by cases kind <;> rfl, by simp [inside, noDefine], by simp [inside, source],
      by simp [inside, noOption], by simp [inside, noPackage]⟩
  · simp only [source, Bool.false_eq_true, ↓reduceIte] at added
    refine ⟨fun kind => by cases kind <;> rfl, defined, by simp [inside, source], added, ?_⟩
    simp only [inside, source, Bool.false_eq_true, ↓reduceIte]
    rfl

/-- A run of the loop over the clean lines: a header resets the flags, and a
line of a section adds to what its kind collects. -/
inductive LineRun (setup : Setup) : List Text → Scan → Scan → Prop where
  | done (scan : Scan) : LineRun setup [] scan scan
  | header {scan final : Scan} {line : Text} {rest : List Text} (header : isHeader line)
      (run : LineRun setup rest (enterSection scan line) final) : LineRun setup (line :: rest) scan final
  | body {scan after final : Scan} {line : Text} {rest : List Text} (plain : ¬ isHeader line)
      (body : Body setup scan after line) (run : LineRun setup rest after final) : LineRun setup (line :: rest) scan final

theorem exclusive_body {scan after : Scan} {line : Text} (body : Body setup scan after line)
    (exclusive : Exclusive scan) : Exclusive after := by
  intro first second firstHeld secondHeld
  rw [body.flags] at firstHeld secondHeld
  exact exclusive first second firstHeld secondHeld

theorem run_of_scan {raws : List Text} {scan final : Scan} (exclusive : Exclusive scan)
    (ended : raws.foldlM (scanLine setup) scan = .ok final) :
    LineRun setup ((raws.map cleanLine).filter (· ≠ [])) scan final := by
  induction raws generalizing scan with
  | nil =>
    cases ended
    exact .done _
  | cons raw raws ih =>
    rw [List.foldlM_cons] at ended
    obtain ⟨after, stepped, ended⟩ := bind_ok ended
    rw [List.map_cons]
    by_cases blank : cleanLine raw = []
    · have same : after = scan := by
        simp only [scanLine, blank, ↓reduceIte, Except.ok.injEq] at stepped
        exact stepped.symm
      rw [same] at ended
      rw [List.filter_cons_of_neg (by simpa using blank)]
      exact ih exclusive ended
    · rw [List.filter_cons_of_pos (by simpa using blank)]
      by_cases header : isHeader (cleanLine raw)
      · rw [scanLine_header blank header] at stepped
        cases stepped
        exact .header header (ih (exclusive_enterSection scan _) ended)
      · have body := scanLine_body exclusive blank header stepped
        exact .body header body (ih (exclusive_body body exclusive) ended)

/-- What one kind of section collects is a fold over its own lines. -/
theorem section_run {A : Type} (kind : Kind) (value : Scan → A) (add : A → Text → Except PyError A)
    (header : ∀ scan line, value (enterSection scan line) = value scan)
    (body : ∀ {scan after line}, Body setup scan after line →
      (if inside scan kind then add (value scan) line else .ok (value scan)) = .ok (value after))
    {lines : List Text} {scan final : Scan} (run : LineRun setup lines scan final) :
    (sectionLines kind (inside scan kind) lines).foldlM add (value scan) = .ok (value final) := by
  induction run with
  | done scan => rfl
  | header opened run ih =>
    rw [inside_enterSection, header] at ih
    simpa [sectionLines, opened] using ih
  | @body scan after final line rest plain changed run ih =>
    have added := body changed
    rw [changed.flags] at ih
    by_cases held : inside scan kind
    · rw [if_pos held] at added
      rw [held] at ih ⊢
      rw [sectionLines, if_neg plain, if_pos rfl, List.foldlM_cons, added]
      exact ih
    · rw [if_neg held, Except.ok.injEq] at added
      rw [Bool.not_eq_true] at held
      rw [held, ← added] at ih
      rw [held, sectionLines, if_neg plain, if_neg (by decide)]
      exact ih

theorem sectionLines_of_no_header {kind : Kind} {lines : List Text}
    (free : ∀ line ∈ lines, isHeader line → ¬ startswith line kind.opening) : sectionLines kind false lines = [] := by
  induction lines with
  | nil => rfl
  | cons line rest ih =>
    have restFree := ih fun other member => free other (List.mem_cons_of_mem _ member)
    have here := free line List.mem_cons_self
    by_cases header : isHeader line
    · simpa [sectionLines, header, here header] using restFree
    · simpa [sectionLines, header] using restFree

theorem sources_run {lines : List Text} {scan final : Scan} (run : LineRun setup lines scan final)
    (exclusive : Exclusive scan)
    (settled : inside scan .sources → ∀ line ∈ lines, isHeader line → ¬ startswith line Kind.defines.opening)
    (ordered : (lines.filter isHeader).Pairwise fun earlier later =>
      ¬ (startswith earlier Kind.sources.opening ∧ startswith later Kind.defines.opening)) :
    (final.srcFiles, final.incPaths) = (sectionLines .sources (inside scan .sources) lines).foldl
      (fun lists line => addSource setup lists (sourceEntry final.macros line)) (scan.srcFiles, scan.incPaths) := by
  induction run with
  | done scan => rfl
  | @header scan final line rest opened run ih =>
    rw [List.filter_cons_of_pos opened, List.pairwise_cons] at ordered
    have next := ih (exclusive_enterSection scan line) (fun source other member header defines =>
      ordered.1 other (List.mem_filter.mpr ⟨member, header⟩) ⟨inside_enterSection scan line _ ▸ source, defines⟩) ordered.2
    rw [inside_enterSection] at next
    rw [sectionLines, if_pos opened]
    exact next
  | @body scan after final line rest plain changed run ih =>
    rw [List.filter_cons_of_neg plain] at ordered
    have settledRest : inside scan .sources → ∀ other ∈ rest, isHeader other → ¬ startswith other Kind.defines.opening :=
      fun source other member => settled source other (List.mem_cons_of_mem _ member)
    have next := ih (exclusive_body changed exclusive) (fun source => settledRest (changed.flags _ ▸ source)) ordered
    rw [changed.flags] at next
    by_cases source : inside scan .sources
    · have noDefine : inside scan .defines = false := by
        by_contra define
        exact absurd (exclusive .sources .defines source (by simpa using define)) (by decide)
      have collected := section_run .defines Scan.macros defineMacro (fun _ _ => rfl) (fun body => body.macros) run
      rw [changed.flags, noDefine, sectionLines_of_no_header (settledRest source)] at collected
      have fixed : scan.macros = after.macros := by simpa [noDefine] using changed.macros
      have same : scan.macros = final.macros := fixed.trans (Except.ok.inj collected)
      have added := changed.sources
      rw [if_pos source, same] at added
      simp only [source] at next
      simpa [sectionLines, plain, source, ← added] using next
    · have kept := changed.sources
      rw [if_neg source] at kept
      simp only [source] at next
      simpa [sectionLines, plain, source, ← kept] using next

private theorem foldlM_ok {A B : Type} (add : A → B → A) (items : List B) (start : A) :
    items.foldlM (fun value item => (.ok (add value item) : Except PyError A)) start = .ok (items.foldl add start) := by
  induction items generalizing start with
  | nil => rfl
  | cons item items ih => exact ih (add start item)

theorem scanInf_results {text : Text} {scan : Scan} (definesFirst : DefinesFirst text)
    (ended : scanInf setup text = .ok scan) :
    (kindLines .defines text).foldlM defineMacro [] = .ok scan.macros ∧
    (kindLines .buildOptions text).foldlM (addOption setup) "-DNO_QSTR".toList = .ok scan.ccOptions ∧
    scan.pkgFiles = (kindLines .packages text).foldl (addPackages setup) [] ∧
    (scan.srcFiles, scan.incPaths) = (kindLines .sources text).foldl
      (fun lists line => addSource setup lists (sourceEntry scan.macros line)) ([], [setup.infPath]) := by
  have fresh : ∀ kind, inside ({ incPaths := [setup.infPath] } : Scan) kind = false := fun kind => by cases kind <;> rfl
  have exclusive : Exclusive { incPaths := [setup.infPath] } := by
    intro first second held
    rw [fresh] at held
    cases held
  have run := run_of_scan exclusive ended
  have macros := section_run .defines Scan.macros defineMacro (fun _ _ => rfl) (fun body => body.macros) run
  have options := section_run .buildOptions Scan.ccOptions (addOption setup) (fun _ _ => rfl) (fun body => body.options) run
  have packages := section_run .packages Scan.pkgFiles (fun files line => .ok (addPackages setup files line))
    (fun _ _ => rfl) (fun {scan after line} body => by rw [body.packages]; split <;> rfl) run
  have sources := sources_run run exclusive (fun source => by rw [fresh] at source; cases source) definesFirst
  rw [fresh] at macros options packages sources
  rw [foldlM_ok] at packages
  exact ⟨macros, options, (Except.ok.inj packages).symm, sources⟩

/-- Two INF texts that agree section kind by section kind scan to the same
sources, include directories, options and packages. -/
theorem scan_by_section {first second : Text} {scan other : Scan}
    (firstOrdered : DefinesFirst first) (secondOrdered : DefinesFirst second)
    (sameLines : ∀ kind, kindLines kind first = kindLines kind second)
    (firstEnded : scanInf setup first = .ok scan) (secondEnded : scanInf setup second = .ok other) :
    scan.srcFiles = other.srcFiles ∧ scan.incPaths = other.incPaths ∧ scan.ccOptions = other.ccOptions ∧
      scan.pkgFiles = other.pkgFiles := by
  obtain ⟨macros, options, packages, sources⟩ := scanInf_results firstOrdered firstEnded
  obtain ⟨macros', options', packages', sources'⟩ := scanInf_results secondOrdered secondEnded
  rw [sameLines, macros'] at macros
  rw [sameLines, options'] at options
  rw [sameLines, ← Except.ok.inj macros, ← sources', Prod.mk.injEq] at sources
  rw [sameLines, ← packages'] at packages
  exact ⟨sources.1, sources.2, (Except.ok.inj options).symm, packages⟩

def plainSetup : Setup :=
  { os := Posix.os, arch := "X64".toList, pkgPaths := ["/w".toList], infPath := "/m".toList
    pathExists := fun _ => true }

def gathered : Text := "[Defines]\nDEFINE D=p\n[Sources]\n$(D)/a.c\nb.c # b\n[Packages]\nM".toList

def scattered : Text := "[Packages]\nM\n[Defines]\n\nDEFINE D=p\n[Sources]\n$(D)/a.c\n[Sources.X]\nb.c".toList

def gatheredScan : Scan :=
  { inPkgSection := true, macros := [(['D'], ['p'])], pkgFiles := ["/w/M".toList]
    srcFiles := ["/m/p/a.c".toList, "/m/b.c".toList], incPaths := ["/m".toList, "/m/p".toList] }

def scatteredScan : Scan := { gatheredScan with inPkgSection := false, inSrcSection := true }

theorem scan_by_section_scattered :
    gatheredScan.srcFiles = scatteredScan.srcFiles ∧ gatheredScan.incPaths = scatteredScan.incPaths ∧
      gatheredScan.ccOptions = scatteredScan.ccOptions ∧ gatheredScan.pkgFiles = scatteredScan.pkgFiles :=
  @scan_by_section plainSetup gathered scattered gatheredScan scatteredScan (by decide) (by decide)
    (fun kind => by cases kind <;> decide) (by decide) (by decide)

end SblPayload.Proofs.InfSections
