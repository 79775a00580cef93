import SblPayload.Proofs.InfSections

/-! The header above a line, and what the grammar of headers says of it: a list of
tags between brackets, separated by commas, each a name with modifiers after dots. -/

namespace SblPayload.Proofs.SectionHeaders
open Library Text Genhdr InfSections

def tags (header : Text) : List (List Text) :=
  (split ',' (before ']' (header.drop 1))).map fun tag => split '.' (strip tag)

/-- The last header of the lines. -/
def header (raws : List Text) : Option Text :=
  raws.foldl (fun header raw => if isHeader (cleanLine raw) then some (cleanLine raw) else header) none

/-- A line that is not a header and has something besides a comment. -/
def IsEntry (raw : Text) : Prop := cleanLine raw ≠ [] ∧ ¬ isHeader (cleanLine raw)

theorem header_snoc (raws : List Text) (raw : Text) :
    header (raws ++ [raw]) = if isHeader (cleanLine raw) then some (cleanLine raw) else header raws :=
  List.foldl_concat ..

theorem blank_no_header {raw : Text} (blank : cleanLine raw = []) : ¬ isHeader (cleanLine raw) := by
  rw [blank]
  decide

instance (raw : Text) : Decidable (IsEntry raw) := inferInstanceAs (Decidable (_ ∧ _))

/-- A line is blank, a header or an entry. -/
theorem line_cases (raw : Text) : cleanLine raw = [] ∨ (cleanLine raw ≠ [] ∧ isHeader (cleanLine raw)) ∨ IsEntry raw := by
  by_cases blank : cleanLine raw = []
  · exact Or.inl blank
  · by_cases opened : isHeader (cleanLine raw)
    · exact Or.inr (Or.inl ⟨blank, opened⟩)
    · exact Or.inr (Or.inr ⟨blank, opened⟩)

section Scan
variable (setup : Setup)

/-- The scan of the first lines of a file. -/
def scanLines (raws : List Text) : Except PyError Scan := raws.foldlM (scanLine setup) { incPaths := [setup.infPath] }

/-- The line stands in a section whose header begins like one of this kind. -/
def headed (kind : Kind) (raws : List Text) : Bool := (header raws).any fun line => startswith line kind.opening

variable {setup : Setup}

theorem scanLines_snoc (front : List Text) (raw : Text) :
    scanLines setup (front ++ [raw]) = scanLines setup front >>= fun scan => scanLine setup scan raw := by
  rw [scanLines, List.foldlM_append, scanLines]
  congr 1
  funext scan
  rw [List.foldlM_cons]
  exact bind_pure _

theorem scanLines_last {front : List Text} {raw : Text} {after : Scan}
    (ended : scanLines setup (front ++ [raw]) = .ok after) :
    ∃ scan, scanLines setup front = .ok scan ∧ scanLine setup scan raw = .ok after := by
  rw [scanLines_snoc] at ended
  exact bind_ok ended

theorem scanLines_front {raws front : List Text} {final : Scan} (ended : scanLines setup raws = .ok final)
    (inside : front <+: raws) : ∃ scan, scanLines setup front = .ok scan := by
  obtain ⟨rest, same⟩ := inside
  rw [← same, scanLines, List.foldlM_append] at ended
  obtain ⟨scan, ran, _⟩ := bind_ok ended
  exact ⟨scan, ran⟩

theorem scanLine_blank {raw : Text} (blank : cleanLine raw = []) (scan : Scan) : scanLine setup scan raw = .ok scan :=
  if_pos blank

/-- The flags of the scan say which header is above. -/
theorem scanLines_sections {raws : List Text} {scan : Scan} (ended : scanLines setup raws = .ok scan) :
    Exclusive scan ∧ ∀ kind, inside scan kind = headed kind raws := by
  induction raws using List.reverseRecOn generalizing scan with
  | nil =>
    cases ended
    constructor
    · intro first second held
      cases first <;> cases held
    · intro kind
      cases kind <;> rfl
  | append_singleton raws raw ih =>
    obtain ⟨before, ran, stepped⟩ := scanLines_last ended
    obtain ⟨exclusive, flags⟩ := ih ran
    unfold headed
    rw [header_snoc]
    rcases line_cases raw with blank | ⟨visible, opened⟩ | entry
    · rw [scanLine_blank blank] at stepped
      cases stepped
      rw [if_neg (blank_no_header blank)]
      exact ⟨exclusive, flags⟩
    · rw [scanLine_header visible opened] at stepped
      cases stepped
      rw [if_pos opened]
      exact ⟨exclusive_enterSection before _, fun kind => inside_enterSection before _ kind⟩
    · have body := scanLine_body exclusive entry.1 entry.2 stepped
      rw [if_neg entry.2]
      exact ⟨exclusive_body body exclusive, fun kind => (body.flags kind).trans (flags kind)⟩

end Scan

end SblPayload.Proofs.SectionHeaders
