import Mathlib.Data.List.Nodup
import SblPayload.Proofs.CompilerFlags

/-! Which INF files the scan accepts, line by line, and what holds of every scan it
accepts. It rejects a file with one exception only. -/

namespace SblPayload.Proofs.InfAcceptance
open Library Text Genhdr InfSections SectionHeaders CompilerFlags

/-- A definition has an equals sign after its keyword. -/
def DefinitionReads (line : Text) : Prop := startswith line "DEFINE ".toList → '=' ∈ line.drop 6

variable (setup : Setup)

/-- An option for the host's family has an assignment, and five fields before it where
the script cuts it. -/
def OptionReads (line : Text) : Prop :=
  ∀ family rest, splitOnce [':'] line = some (family, rest) → hostFamily setup (strip family) →
    ∃ key value, cutOption rest = some (key, value) ∧ key.count '_' = 4

/-- What a line must hold in the section it stands in. -/
def LineReads (front : List Text) (raw : Text) : Prop :=
  IsEntry raw → (headed .defines front → DefinitionReads (cleanLine raw)) ∧
    (headed .buildOptions front → OptionReads setup (cleanLine raw))

def Readable (raws : List Text) : Prop := ∀ front raw, At raws front raw → LineReads setup front raw

/-- A result that is there exactly when something holds, the one exception otherwise. -/
def Judged {A : Type} (good : Prop) : Except PyError A → Prop
  | .ok _ => good
  | .error error => ¬ good ∧ error = .value

section Judging
variable {setup} {A B : Type} {good more : Prop}

theorem Judged.bind {first : Except PyError A} {next : A → Except PyError B} (head : Judged good first)
    (rest : ∀ value, first = .ok value → Judged more (next value)) : Judged (good ∧ more) (first >>= next) := by
  cases first with
  | error error => exact ⟨fun both => head.1 both.1, head.2⟩
  | ok value =>
    have late := rest value rfl
    change Judged _ (next value)
    cases ended : next value with
    | error error =>
      rw [ended] at late
      exact ⟨fun both => late.1 both.2, late.2⟩
    | ok result =>
      rw [ended] at late
      exact ⟨head, late⟩

theorem Judged.congr {result : Except PyError A} (judged : Judged good result) (same : good ↔ more) :
    Judged more result := propext same ▸ judged

/-- A step that is only taken under a condition. -/
theorem Judged.guard {condition : Bool} {result : Except PyError A} {value : A}
    (judged : condition → Judged good result) : Judged (condition → good) (if condition then result else .ok value) := by
  cases condition with
  | false => exact fun impossible => nomatch impossible
  | true => exact (judged rfl).congr ⟨fun held _ => held, fun held => held rfl⟩

theorem defineMacro_judged (macros : List (Text × Text)) (line : Text) :
    Judged (DefinitionReads line) (defineMacro macros line) := by
  unfold defineMacro
  split
  next keyword =>
    have cut := @splitOnce_isSome '=' (line.drop 6)
    split
    next name value found =>
      rw [found] at cut
      exact fun _ => cut.mp rfl
    next missing =>
      rw [missing] at cut
      exact ⟨fun reads => absurd (cut.mpr (reads keyword)) (by decide), rfl⟩
  next other => exact fun keyword => absurd keyword other

theorem five_fields {key : Text} : (split '_' (strip key)).length = 5 ↔ key.count '_' = 4 := by
  have visible : isspace '_' = false := by decide
  rw [length_split, count_strip visible]
  omega

theorem five_items {items : List Text} (five : items.length = 5) :
    ∃ first second third fourth fifth, items = [first, second, third, fourth, fifth] := by
  rcases items with _ | ⟨first, _ | ⟨second, _ | ⟨third, _ | ⟨fourth, _ | ⟨fifth, _ | ⟨sixth, rest⟩⟩⟩⟩⟩⟩
  case cons.cons.cons.cons.cons.nil => exact ⟨first, second, third, fourth, fifth, rfl⟩
  all_goals
    simp only [List.length_nil, List.length_cons] at five
    omega

theorem addOption_judged (ccOptions line : Text) : Judged (OptionReads setup line) (addOption setup ccOptions line) := by
  unfold addOption OptionReads
  cases opened : splitOnce [':'] line with
  | none => exact fun family rest impossible => nomatch impossible
  | some parts =>
    obtain ⟨family, rest⟩ := parts
    dsimp only
    split
    next host =>
      have cutAt : (splitOnce ['=', '='] rest).or (splitOnce ['='] rest) = cutOption rest := rfl
      rw [cutAt]
      cases cut : cutOption rest with
      | none =>
        refine ⟨fun reads => ?_, rfl⟩
        obtain ⟨key, value, found, _⟩ := reads family rest rfl host
        rw [cut] at found
        cases found
      | some pair =>
        obtain ⟨key, value⟩ := pair
        have reads : (∀ other last, some (family, rest) = some (other, last) → hostFamily setup (strip other) →
            ∃ key value, cutOption last = some (key, value) ∧ key.count '_' = 4) ↔ (split '_' (strip key)).length = 5 := by
          rw [five_fields]
          constructor
          · intro reads
            obtain ⟨name, option, found, four⟩ := reads family rest rfl host
            cases cut.symm.trans found
            exact four
          · intro four other last same _
            cases same
            exact ⟨key, value, cut, four⟩
        apply Judged.congr _ reads.symm
        dsimp only
        split
        next fields =>
          rw [fields]
          split
          · exact rfl
          · exact rfl
        next other =>
          refine ⟨fun five => ?_, rfl⟩
          obtain ⟨target, tag, arch, tool, attr, fields⟩ := five_items five
          exact other target tag arch tool attr fields
    next foreign =>
      intro family rest same host
      cases same
      exact absurd host foreign

/-- One line, in a scan whose flags say which header is above. -/
theorem scanLine_judged {scan : Scan} {front : List Text} (exclusive : Exclusive scan)
    (flags : ∀ kind, inside scan kind = headed kind front) (raw : Text) :
    Judged (LineReads setup front raw) (scanLine setup scan raw) := by
  unfold LineReads
  rcases line_cases raw with blank | ⟨visible, opened⟩ | entry
  · rw [scanLine_blank blank]
    exact fun entry => absurd blank entry.1
  · rw [scanLine_header visible opened]
    exact fun entry => absurd opened entry.2
  · refine Judged.congr ?_ ⟨fun held _ => held, fun held => held entry⟩
    have plain : (cleanLine raw).head? ≠ some '[' := fun opened => entry.2 (decide_eq_true opened)
    rw [← flags .defines, ← flags .buildOptions]
    simp only [scanLine, entry.1, plain, ↓reduceIte]
    apply Judged.bind (Judged.guard fun _ => defineMacro_judged scan.macros _)
    intro macros _
    refine ((Judged.guard fun build => ?_).bind fun options _ => ?_).congr (iff_of_eq (and_true _))
    · -- the line is only rewritten in a section of sources
      have noSource : scan.inSrcSection = false :=
        @outside_of_inside scan exclusive .buildOptions .sources build (by decide)
      rw [noSource, if_neg (by decide)]
      exact addOption_judged _ _
    · exact trivial

theorem readable_snoc (raws : List Text) (raw : Text) :
    Readable setup (raws ++ [raw]) ↔ Readable setup raws ∧ LineReads setup raws raw := by
  have inside (front : List Text) (item : Text) :
      At (raws ++ [raw]) front item ↔ front = raws ∧ item = raw ∨ At raws front item := by
    rw [At, List.prefix_concat_iff, List.append_singleton_inj]
    rfl
  constructor
  · intro reads
    exact ⟨fun front item here => reads front item ((inside front item).mpr (Or.inr here)),
      reads raws raw ((inside raws raw).mpr (Or.inl ⟨rfl, rfl⟩))⟩
  · rintro ⟨early, last⟩ front item here
    rcases (inside front item).mp here with ⟨rfl, rfl⟩ | before
    · exact last
    · exact early front item before

theorem scanLines_judged (raws : List Text) : Judged (Readable setup raws) (scanLines setup raws) := by
  induction raws using List.reverseRecOn with
  | nil =>
    intro front raw inside
    exact absurd (List.prefix_nil.mp inside) (List.append_ne_nil_of_right_ne_nil _ (List.cons_ne_nil _ _))
  | append_singleton raws raw ih =>
    rw [scanLines_snoc]
    refine (ih.bind fun scan ran => ?_).congr (readable_snoc raws raw).symm
    obtain ⟨exclusive, flags⟩ := scanLines_sections ran
    exact scanLine_judged exclusive flags raw

end Judging

/-- The scan accepts a file exactly when every line can be read in the section it
stands in, and raises a `ValueError` on any other. -/
theorem scan_accepts (text : Text) :
    ((∃ scan, scanInf setup text = .ok scan) ↔ Readable setup (readlines text)) ∧
      (scanInf setup text = .error .value ↔ ¬ Readable setup (readlines text)) := by
  have judged : Judged (Readable setup (readlines text)) (scanInf setup text) := scanLines_judged (readlines text)
  cases ended : scanInf setup text with
  | ok scan =>
    rw [ended] at judged
    exact ⟨⟨fun _ => judged, fun _ => ⟨scan, rfl⟩⟩, ⟨fun impossible => (nomatch impossible), fun broken => absurd judged broken⟩⟩
  | error error =>
    rw [ended] at judged
    obtain ⟨broken, rfl⟩ := judged
    refine ⟨⟨?_, fun reads => absurd reads broken⟩, ⟨fun _ => broken, fun _ => rfl⟩⟩
    rintro ⟨scan, impossible⟩
    cases impossible

/-- A package file is there, under one of the search paths. -/
def Found (pkg : Text) : Prop :=
  setup.pathExists pkg ∧ ∃ pkgPath ∈ setup.pkgPaths, ∃ entry, pkg = setup.os.normpath (setup.os.join pkgPath entry)

/-- What holds of the lists after every line. -/
structure Sound (scan : Scan) : Prop where
  exclusive : Exclusive scan
  macros : (scan.macros.map Prod.fst).Nodup
  home : setup.infPath ∈ scan.incPaths
  folders : scan.incPaths.Nodup
  covered : ∀ src ∈ scan.srcFiles, setup.os.dirname src ∈ scan.incPaths
  packages : scan.pkgFiles.Nodup
  found : ∀ pkg ∈ scan.pkgFiles, Found setup pkg
  options : "-DNO_QSTR".toList <+: scan.ccOptions

section Soundness
variable {setup}

theorem nodup_snoc {A : Type} {items : List A} {item : A} (distinct : items.Nodup) (fresh : item ∉ items) :
    (items ++ [item]).Nodup := by
  rw [← List.concat_eq_append, List.nodup_concat]
  exact ⟨fresh, distinct⟩

theorem setItem_names (name value : Text) (macros : List (Text × Text)) :
    (setItem name value macros).map Prod.fst =
      if name ∈ macros.map Prod.fst then macros.map Prod.fst else macros.map Prod.fst ++ [name] := by
  induction macros with
  | nil => rfl
  | cons entry macros ih =>
    obtain ⟨other, old⟩ := entry
    rw [setItem]
    by_cases same : other = name
    · rw [if_pos same, List.map_cons, List.map_cons, same, if_pos List.mem_cons_self]
    · rw [if_neg same, List.map_cons, List.map_cons, ih]
      by_cases later : name ∈ macros.map Prod.fst
      · rw [if_pos later, if_pos (List.mem_cons_of_mem _ later)]
      · rw [if_neg later, if_neg, List.cons_append]
        exact List.not_mem_cons_of_ne_of_not_mem (Ne.symm same) later

theorem setItem_distinct {macros : List (Text × Text)} (distinct : (macros.map Prod.fst).Nodup) (name value : Text) :
    ((setItem name value macros).map Prod.fst).Nodup := by
  rw [setItem_names]
  split
  · exact distinct
  next fresh => exact nodup_snoc distinct fresh

theorem defineMacro_distinct {macros after : List (Text × Text)} {line : Text}
    (distinct : (macros.map Prod.fst).Nodup) (ended : defineMacro macros line = .ok after) :
    (after.map Prod.fst).Nodup := by
  unfold defineMacro at ended
  split at ended
  · split at ended
    · cases ended
      exact setItem_distinct distinct _ _
    · cases ended
  · cases ended
    exact distinct

theorem addOption_grows {ccOptions after line : Text} (ended : addOption setup ccOptions line = .ok after) :
    ccOptions <+: after := by
  unfold addOption at ended
  repeat' split at ended
  all_goals cases ended
  all_goals first | exact List.prefix_rfl | exact List.prefix_append _ _

variable (setup) in
/-- The lists of sources and folders, with the folder of every source. -/
structure Covers (lists : List Text × List Text) : Prop where
  home : setup.infPath ∈ lists.2
  folders : lists.2.Nodup
  covered : ∀ src ∈ lists.1, setup.os.dirname src ∈ lists.2

theorem addSource_covers {lists : List Text × List Text} (covers : Covers setup lists) (line : Text) :
    Covers setup (addSource setup lists line) := by
  unfold addSource
  dsimp only
  generalize setup.os.normpath (setup.os.join setup.infPath line) = src
  -- the folder is in the list after the line, whether it was there before or not
  have grown : ∃ later, (if setup.os.dirname src ∈ lists.2 then lists.2 else lists.2 ++ [setup.os.dirname src]) = later ∧
      lists.2 ⊆ later ∧ setup.os.dirname src ∈ later ∧ later.Nodup := by
    refine ⟨_, rfl, ?_⟩
    split
    next old => exact ⟨List.Subset.refl _, old, covers.folders⟩
    next fresh =>
      exact ⟨List.subset_append_left _ _, List.mem_append_right _ List.mem_cons_self, nodup_snoc covers.folders fresh⟩
  obtain ⟨later, same, kept, here, distinct⟩ := grown
  rw [same]
  refine ⟨kept covers.home, distinct, ?_⟩
  dsimp only
  intro other member
  split at member
  · rcases List.mem_append.mp member with old | new
    · exact kept (covers.covered other old)
    · rw [List.mem_singleton.mp new]
      exact here
  · exact kept (covers.covered other member)

theorem addPackages_found {files : List Text} (line : Text) (distinct : files.Nodup) (found : ∀ pkg ∈ files, Found setup pkg) :
    (addPackages setup files line).Nodup ∧ ∀ pkg ∈ addPackages setup files line, Found setup pkg := by
  have from_here (paths : List Text) (known : paths ⊆ setup.pkgPaths) (files : List Text) (distinct : files.Nodup)
      (found : ∀ pkg ∈ files, Found setup pkg) :
      let after := paths.foldl (fun files pkgPath =>
        let pkg := setup.os.normpath (setup.os.join pkgPath line)
        if setup.pathExists pkg ∧ pkg ∉ files then files ++ [pkg] else files) files
      after.Nodup ∧ ∀ pkg ∈ after, Found setup pkg := by
    induction paths generalizing files with
    | nil => exact ⟨distinct, found⟩
    | cons path paths ih =>
      obtain ⟨first, rest⟩ := List.cons_subset.mp known
      dsimp only [List.foldl_cons]
      split
      next new =>
        refine ih rest _ (nodup_snoc distinct new.2) ?_
        intro pkg member
        rcases List.mem_append.mp member with old | last
        · exact found pkg old
        · rw [List.mem_singleton.mp last]
          exact ⟨new.1, path, first, line, rfl⟩
      next => exact ih rest files distinct found
  exact from_here setup.pkgPaths (List.Subset.refl _) files distinct found

theorem Sound.body {scan after : Scan} {line : Text} (sound : Sound setup scan) (body : Body setup scan after line) :
    Sound setup after := by
  have covers : Covers setup (scan.srcFiles, scan.incPaths) := ⟨sound.home, sound.folders, sound.covered⟩
  have lists : Covers setup (after.srcFiles, after.incPaths) := by
    rw [body.sources]
    split
    · exact addSource_covers covers _
    · exact covers
  have packages : after.pkgFiles.Nodup ∧ ∀ pkg ∈ after.pkgFiles, Found setup pkg := by
    rw [body.packages]
    split
    · exact addPackages_found line sound.packages sound.found
    · exact ⟨sound.packages, sound.found⟩
  refine ⟨exclusive_body body sound.exclusive, ?_, lists.home, lists.folders, lists.covered, packages.1, packages.2, ?_⟩
  · have macros := body.macros
    split at macros
    · exact defineMacro_distinct sound.macros macros
    · exact Except.ok.inj macros ▸ sound.macros
  · have options := body.options
    split at options
    · exact sound.options.trans (addOption_grows options)
    · exact Except.ok.inj options ▸ sound.options

theorem scanLines_sound {raws : List Text} {scan : Scan} (ended : scanLines setup raws = .ok scan) : Sound setup scan := by
  induction raws using List.reverseRecOn generalizing scan with
  | nil =>
    have exclusive := (scanLines_sections ended).1
    cases ended
    exact ⟨exclusive, List.nodup_nil, List.mem_cons_self, List.nodup_singleton _, List.forall_mem_nil _, List.nodup_nil,
      List.forall_mem_nil _, List.prefix_rfl⟩
  | append_singleton raws raw ih =>
    obtain ⟨before, ran, stepped⟩ := scanLines_last ended
    have sound := ih ran
    rcases line_cases raw with blank | ⟨visible, opened⟩ | entry
    · rw [scanLine_blank blank] at stepped
      cases stepped
      exact sound
    · rw [scanLine_header visible opened] at stepped
      cases stepped
      exact { sound with exclusive := exclusive_enterSection before _ }
    · exact sound.body (scanLine_body sound.exclusive entry.1 entry.2 stepped)

end Soundness

/-- What the scan accepts is well formed: no folder, package or macro twice, every
package file there, and the folder of every source among the include directories. -/
theorem scan_sound {text : Text} {scan : Scan} (ended : scanInf setup text = .ok scan) : Sound setup scan :=
  scanLines_sound ended

theorem gathered_sound : Sound plainSetup gatheredScan := @scan_sound plainSetup gathered gatheredScan (by decide)

end SblPayload.Proofs.InfAcceptance
