import SblPayload.Library.Collect
import SblPayload.Proofs.SectionHeaders

/-! The include directories of a package, against the sections that apply to the
machine by the grammar of their headers. -/

namespace SblPayload.Proofs.PackageIncludes
open Library Text Genhdr InfSections SectionHeaders

/-- An `Includes` tag without a modifier, or with `common` or the machine as its
modifier. A tag with a modifier may have the qualifier `Private` after it. -/
def includesTag (arch : Text) : List Text → Bool
  | [name] => name = "Includes".toList
  | [name, modifier] => name = "Includes".toList ∧ (lower modifier = "common".toList ∨ modifier = arch)
  | [name, modifier, qualifier] =>
    name = "Includes".toList ∧ (lower modifier = "common".toList ∨ modifier = arch) ∧ qualifier = "Private".toList
  | _ => false

def includesApply (arch header : Text) : Bool := (tags header).any (includesTag arch)

/-- The test of the code. -/
def includesJudged (arch header : Text) : Bool :=
  startswith header "[Includes".toList && (!contains header ['.'] || contains header arch)

variable (setup : Setup) (pkg arch : Text)

def directory (raw : Text) : Text := setup.os.normpath (setup.os.join (setup.os.dirname pkg) (cleanLine raw))

/-- What a line adds when headers are judged by a test. -/
def added (judge : Text → Bool) (front : List Text) (raw : Text) : List Text :=
  if IsEntry raw ∧ (header front).any judge then [directory setup pkg raw] else []

def wantedIncludes (raws : List Text) : List Text := collect (added setup pkg (includesApply arch)) raws

def collected (raws : List Text) : List Text :=
  (raws.foldl (includeLine setup (setup.os.dirname pkg) arch) (false, [])).2

/-- The list is right after every line of the file, and so at its end. -/
structure Selects (text : Text) : Prop where
  result : getPkgInc setup pkg text arch = wantedIncludes setup pkg arch (readlines text)
  throughout : ∀ front, front <+: readlines text → collected setup pkg arch front = wantedIncludes setup pkg arch front

/-- For every entry, the test of the code and the grammar agree on the header above it. -/
def HeadersAgree (text : Text) : Prop := ∀ front raw, At (readlines text) front raw → IsEntry raw →
  ∀ line, header front = some line → includesJudged arch line = includesApply arch line

section Lines
variable {setup : Setup} {pkg arch : Text}

theorem includeLine_blank {raw : Text} (blank : cleanLine raw = []) (folder : Text) (state : Bool × List Text) :
    includeLine setup folder arch state raw = state := if_pos blank

theorem includeLine_header {raw : Text} (opened : isHeader (cleanLine raw)) (folder : Text) (state : Bool × List Text) :
    includeLine setup folder arch state raw = (includesJudged arch (cleanLine raw), state.2) := by
  have visible : cleanLine raw ≠ [] := fun blank => blank_no_header blank opened
  exact (if_neg visible).trans (if_pos (of_decide_eq_true opened))

theorem includeLine_entry {raw : Text} (entry : IsEntry raw) (state : Bool × List Text) :
    includeLine setup (setup.os.dirname pkg) arch state raw =
      (state.1, state.2 ++ if state.1 then [directory setup pkg raw] else []) := by
  have plain : (cleanLine raw).head? ≠ some '[' := fun opened => entry.2 (decide_eq_true opened)
  unfold includeLine
  rw [if_neg entry.1, if_neg plain]
  split
  next inside => rw [inside]; rfl
  next outside => rw [List.append_nil]

/-- The flag of the loop is the judgement of the header above. -/
theorem flag_of_header (raws : List Text) :
    (raws.foldl (includeLine setup (setup.os.dirname pkg) arch) (false, [])).1 =
      (header raws).any (includesJudged arch) := by
  induction raws using List.reverseRecOn with
  | nil => rfl
  | append_singleton raws raw ih =>
    rw [List.foldl_concat, header_snoc]
    by_cases opened : isHeader (cleanLine raw)
    · rw [includeLine_header opened, if_pos opened, Option.any_some]
    · rw [if_neg opened, ← ih]
      by_cases blank : cleanLine raw = []
      · rw [includeLine_blank blank]
      · rw [includeLine_entry ⟨blank, opened⟩]

theorem collected_snoc (front : List Text) (raw : Text) :
    collected setup pkg arch (front ++ [raw]) =
      collected setup pkg arch front ++ added setup pkg (includesJudged arch) front raw := by
  rw [collected, List.foldl_concat, added]
  rcases line_cases raw with blank | ⟨visible, opened⟩ | entry
  · rw [includeLine_blank blank, if_neg (fun inside => inside.1.1 blank), List.append_nil, collected]
  · rw [includeLine_header opened, if_neg (fun inside => inside.1.2 opened), List.append_nil, collected]
  · rw [includeLine_entry entry, flag_of_header]
    simp only [entry, true_and]
    rfl

theorem added_eq_iff {judge other : Text → Bool} {front : List Text} {raw : Text} :
    added setup pkg judge front raw = added setup pkg other front raw ↔
      (IsEntry raw → ∀ line, header front = some line → judge line = other line) := by
  unfold added
  by_cases entry : IsEntry raw
  · cases above : header front with
    | none => simp
    | some line =>
      simp only [entry, true_and, Option.any_some, Option.some.injEq, forall_eq', true_implies]
      cases judge line <;> cases other line <;> simp
  · simp [entry]

theorem package_includes_iff (text : Text) : Selects setup pkg arch text ↔ HeadersAgree arch text := by
  have steps : ∀ front raw, At (readlines text) front raw → collected setup pkg arch (front ++ [raw]) =
      collected setup pkg arch front ++ added setup pkg (includesJudged arch) front raw :=
    fun front raw _ => collected_snoc front raw
  have agree : HeadersAgree arch text ↔ ∀ front raw, At (readlines text) front raw →
      added setup pkg (includesJudged arch) front raw = added setup pkg (includesApply arch) front raw := by
    simp only [added_eq_iff, HeadersAgree]
  rw [agree, ← collected_iff steps]
  constructor
  · intro selects front inside
    rw [selects.throughout front inside]
    rfl
  · intro same
    have throughout : ∀ front, front <+: readlines text →
        collected setup pkg arch front = wantedIncludes setup pkg arch front := fun front inside => same front inside
    exact ⟨throughout _ List.prefix_rfl, throughout⟩

end Lines

def commonPackage : Text := "[Includes.common]\nInclude\n[Includes, Includes.IA32]\nMore\n".toList

/-- Directories for every machine, in a section whose header has a modifier and in
one whose header names another machine besides. -/
theorem common_includes_missed :
    getPkgInc plainSetup "/w/P/P.dec".toList commonPackage "X64".toList = [] ∧
    wantedIncludes plainSetup "/w/P/P.dec".toList "X64".toList (readlines commonPackage) =
      ["/w/P/Include".toList, "/w/P/More".toList] ∧
    ¬ Selects plainSetup "/w/P/P.dec".toList "X64".toList commonPackage := by
  refine ⟨by decide, by decide, ?_⟩
  intro selects
  exact absurd selects.result (by decide)

end SblPayload.Proofs.PackageIncludes
