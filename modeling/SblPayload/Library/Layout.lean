import SblPayload.Library.PythonText

/-! Text laid out in lines: what is written on a line is what is read from it, without
the blanks around it. -/

namespace SblPayload.Library.Text

/-- Visible at both ends, and on one line. -/
structure Solid (text : Text) : Prop where
  opens : ∃ char ∈ text.head?, isspace char = false
  closes : ∃ char ∈ text.getLast?, isspace char = false
  single : '\n' ∉ text ∧ '\r' ∉ text

instance (text : Text) : Decidable (Solid text) :=
  decidable_of_iff (text.head?.any (! isspace ·) = true ∧ text.getLast?.any (! isspace ·) = true ∧
    '\n' ∉ text ∧ '\r' ∉ text) (by
      simp only [Option.any_eq_true, Bool.not_eq_true', ← Option.mem_def]
      exact ⟨fun held => ⟨held.1, held.2.1, held.2.2⟩, fun solid => ⟨solid.opens, solid.closes, solid.single⟩⟩)

section Solid
variable {text front middle last : Text}

theorem Solid.some (solid : Solid text) : text ≠ [] := by
  rintro rfl
  obtain ⟨_, impossible, _⟩ := solid.opens
  cases impossible

theorem Solid.around (opened : Solid front) (closed : Solid last) (inner : '\n' ∉ middle ∧ '\r' ∉ middle) :
    Solid (front ++ middle ++ last) := by
  obtain ⟨first, begins, visible⟩ := opened.opens
  obtain ⟨final, ends, shown⟩ := closed.closes
  refine ⟨⟨first, ?_, visible⟩, ⟨final, ?_, shown⟩, ?_, ?_⟩
  · rw [List.append_assoc, List.head?_append, Option.mem_def.mp begins]
    rfl
  · rw [List.getLast?_append, Option.mem_def.mp ends]
    rfl
  · simp only [List.mem_append, not_or]
    exact ⟨⟨opened.single.1, inner.1⟩, closed.single.1⟩
  · simp only [List.mem_append, not_or]
    exact ⟨⟨opened.single.2, inner.2⟩, closed.single.2⟩

/-- Blanks on either side are taken away, and nothing else. -/
theorem Solid.strip_padded (solid : Solid text) (leading trailing : Text)
    (before : leading.all isspace = true) (after : trailing.all isspace = true) :
    strip (leading ++ text ++ trailing) = text := by
  obtain ⟨first, begins, visible⟩ := solid.opens
  obtain ⟨final, ends, shown⟩ := solid.closes
  have opened : lstrip (leading ++ text ++ trailing) = text ++ trailing := by
    obtain ⟨rest, rfl⟩ := List.head?_eq_some_iff.mp begins
    rw [lstrip, List.append_assoc, List.dropWhile_append_of_pos (List.all_eq_true.mp before), List.cons_append, List.dropWhile_cons_of_neg]
    rw [visible]
    decide
  obtain ⟨inner, rfl⟩ := List.getLast?_eq_some_iff.mp ends
  have blank : ∀ char ∈ trailing.reverse, isspace char = true := fun char member =>
    List.all_eq_true.mp after char (List.mem_reverse.mp member)
  rw [strip, opened, rstrip, List.rdropWhile, List.reverse_append, List.dropWhile_append_of_pos blank, List.reverse_append]
  change (List.dropWhile isspace (final :: inner.reverse)).reverse = _
  rw [List.dropWhile_cons_of_neg, List.reverse_cons, List.reverse_reverse]
  rw [shown]
  decide

theorem Solid.strip_eq (solid : Solid text) : strip text = text := by
  have padded := solid.strip_padded [] [] rfl rfl
  rwa [List.nil_append, List.append_nil] at padded

end Solid

theorem before_free {mark : Char} {text : Text} (free : mark ∉ text) : before mark text = text := by
  apply List.takeWhile_eq_self_iff.mpr
  intro char member
  exact bne_iff_ne.mpr fun same => free (same ▸ member)

theorem before_mark {mark : Char} {text : Text} (free : mark ∉ text) (rest : Text) :
    before mark (text ++ mark :: rest) = text := by
  have kept : ∀ char ∈ text, (char != mark) = true := fun char member => bne_iff_ne.mpr fun same => free (same ▸ member)
  rw [before, List.takeWhile_append_of_pos kept, List.takeWhile_cons_of_neg, List.append_nil]
  rw [bne_self_eq_false]
  decide

theorem universalNewlines_free {text : Text} (free : '\r' ∉ text) : universalNewlines text = text := by
  induction text with
  | nil => rfl
  | cons char text ih =>
    rw [List.mem_cons, not_or] at free
    rw [universalNewlines, ih free.2]
    · rintro rest rfl
      exact absurd rfl free.1
    · rintro rfl
      exact absurd rfl free.1

theorem linesKept_line {line : Text} (free : '\n' ∉ line) (rest : Text) :
    linesKept (line ++ '\n' :: rest) = (line ++ ['\n']) :: linesKept rest := by
  induction line with
  | nil => exact if_pos rfl
  | cons char line ih =>
    rw [List.mem_cons, not_or] at free
    rw [List.cons_append, linesKept, if_neg (Ne.symm free.1), ih free.2]
    rfl

theorem linesKept_lines {lines : List Text} (single : ∀ line ∈ lines, '\n' ∉ line) :
    linesKept (lines.flatMap fun line => line ++ ['\n']) = lines.map fun line => line ++ ['\n'] := by
  induction lines with
  | nil => rfl
  | cons line lines ih =>
    obtain ⟨here, later⟩ := List.forall_mem_cons.mp single
    rw [List.flatMap_cons, List.append_assoc, List.singleton_append, linesKept_line here, ih later]
    rfl

/-- Lines that are written out are read back. -/
theorem readlines_lines {lines : List Text} (single : ∀ line ∈ lines, '\n' ∉ line ∧ '\r' ∉ line) :
    readlines (lines.flatMap fun line => line ++ ['\n']) = lines.map fun line => line ++ ['\n'] := by
  have free : '\r' ∉ lines.flatMap fun line => line ++ ['\n'] := by
    intro member
    obtain ⟨line, among, inside⟩ := List.mem_flatMap.mp member
    rcases List.mem_append.mp inside with here | last
    · exact (single line among).2 here
    · cases List.mem_singleton.mp last
  rw [readlines, universalNewlines_free free]
  exact linesKept_lines fun line member => (single line member).1

end SblPayload.Library.Text
