import SblPayload.Library.PythonText

/-! How cutting, stripping and joining texts act on one another. -/

namespace SblPayload.Library.Text

section Split
variable {mark : Char}

theorem split_ne_nil (text : Text) : split mark text ≠ [] := by
  cases text with
  | nil => exact List.cons_ne_nil _ _
  | cons char text =>
    rw [split]
    split
    · exact List.cons_ne_nil _ _
    · split <;> exact List.cons_ne_nil _ _

theorem split_eq_splitOn (text : Text) : split mark text = text.splitOn mark := by
  induction text with
  | nil => rfl
  | cons char text ih =>
    rw [split, List.splitOn_cons_eq_if_modifyHead, ← ih]
    by_cases same : char = mark
    · rw [if_pos same, if_pos (beq_iff_eq.mpr same)]
    · rw [if_neg same, if_neg (mt beq_iff_eq.mp same)]
      cases cut : split mark text with
      | nil => exact absurd cut (split_ne_nil text)
      | cons first rest => rfl

theorem length_split (text : Text) : (split mark text).length = text.count mark + 1 := by
  induction text with
  | nil => rfl
  | cons char text ih =>
    rw [split]
    by_cases same : char = mark
    · rw [if_pos same, same, List.length_cons, ih, List.count_cons_self]
    · rw [if_neg same, List.count_cons_of_ne same, ← ih]
      cases cut : split mark text with
      | nil => exact absurd cut (split_ne_nil text)
      | cons first rest => rfl

theorem split_free {text field : Text} (member : field ∈ split mark text) : mark ∉ field := by
  induction text generalizing field with
  | nil =>
    rw [split, List.mem_singleton] at member
    rw [member]
    exact List.not_mem_nil
  | cons char text ih =>
    rw [split] at member
    by_cases same : char = mark
    · rw [if_pos same] at member
      cases List.mem_cons.mp member with
      | inl empty =>
        rw [empty]
        exact List.not_mem_nil
      | inr later => exact ih later
    · rw [if_neg same] at member
      cases cut : split mark text with
      | nil => exact absurd cut (split_ne_nil text)
      | cons first rest =>
        rw [cut] at member ih
        cases List.mem_cons.mp member with
        | inl here =>
          rw [here, List.mem_cons, not_or]
          exact ⟨Ne.symm same, ih List.mem_cons_self⟩
        | inr later => exact ih (List.mem_cons_of_mem _ later)

theorem intercalate_extend (joint : Text) (front : List Text) (last more : Text) :
    joint.intercalate (front ++ [last]) ++ more = joint.intercalate (front ++ [last ++ more]) := by
  induction front with
  | nil => simp
  | cons first front ih =>
    cases front with
    | nil => simp
    | cons second front =>
      simp only [List.cons_append] at ih ⊢
      rw [List.intercalate_cons_cons, List.append_assoc, ih, List.intercalate_cons_cons]

/-- Text without the mark makes the last field longer. -/
theorem split_extend {text last more : Text} {front : List Text} (cut : split mark text = front ++ [last])
    (free : mark ∉ more) : split mark (text ++ more) = front ++ [last ++ more] := by
  have joined : [mark].intercalate (front ++ [last]) = text := by
    rw [← cut, split_eq_splitOn, List.intercalate_splitOn]
  rw [← joined, intercalate_extend, split_eq_splitOn]
  apply List.splitOn_intercalate
  · have fields : ∀ field ∈ front ++ [last], mark ∉ field := fun field member => split_free (cut ▸ member)
    obtain ⟨before, final⟩ := List.forall_mem_append.mp fields
    refine List.forall_mem_append.mpr ⟨before, List.forall_mem_singleton.mpr ?_⟩
    rw [List.mem_append, not_or]
    exact ⟨final last (List.mem_singleton_self last), free⟩
  · exact List.append_ne_nil_of_right_ne_nil _ (List.cons_ne_nil _ _)

end Split

section Strip

theorem lstrip_blanks (text : Text) : ∃ blanks, (∀ char ∈ blanks, isspace char = true) ∧ text = blanks ++ lstrip text :=
  ⟨text.takeWhile isspace, fun _ => List.mem_takeWhile_imp, List.takeWhile_append_dropWhile.symm⟩

theorem rstrip_blanks (text : Text) : ∃ blanks, (∀ char ∈ blanks, isspace char = true) ∧ text = rstrip text ++ blanks :=
  ⟨text.rtakeWhile isspace, fun _ => List.mem_rtakeWhile_imp, List.rdropWhile_append_rtakeWhile.symm⟩

theorem count_blanks {char : Char} (visible : isspace char = false) {blanks : Text}
    (all : ∀ char ∈ blanks, isspace char = true) : blanks.count char = 0 := by
  apply List.count_eq_zero.mpr
  intro member
  rw [all char member] at visible
  cases visible

/-- Stripping takes no visible character away. -/
theorem count_strip {char : Char} (visible : isspace char = false) (text : Text) :
    (strip text).count char = text.count char := by
  obtain ⟨before, leading, opened⟩ := lstrip_blanks text
  obtain ⟨after, trailing, closed⟩ := rstrip_blanks (lstrip text)
  have whole : text = before ++ (strip text ++ after) := by rw [strip, ← closed, ← opened]
  conv_rhs => rw [whole, List.count_append, List.count_append, count_blanks visible leading, count_blanks visible trailing]
  omega

theorem rstrip_append {text rest : Text} (visible : rstrip rest ≠ []) : rstrip (text ++ rest) = text ++ rstrip rest := by
  have kept : ¬ (rest.reverse.dropWhile isspace).isEmpty := by
    intro empty
    apply visible
    rw [rstrip, List.rdropWhile, List.isEmpty_iff.mp empty, List.reverse_nil]
  rw [rstrip, rstrip, List.rdropWhile, List.rdropWhile, List.reverse_append, List.dropWhile_append, if_neg kept,
    List.reverse_append, List.reverse_reverse]

/-- A text with more behind it keeps its front, and the blanks at its end. -/
theorem strip_append {text rest : Text} (some : strip text ≠ []) (visible : rstrip rest ≠ []) :
    ∃ blanks, (∀ char ∈ blanks, isspace char = true) ∧ strip (text ++ rest) = strip text ++ (blanks ++ rstrip rest) := by
  have begins : lstrip text ≠ [] := by
    intro empty
    apply some
    rw [strip, empty]
    rfl
  have front : lstrip (text ++ rest) = lstrip text ++ rest := by
    have kept : ¬ (text.dropWhile isspace).isEmpty := fun empty => begins (List.isEmpty_iff.mp empty)
    rw [lstrip, List.dropWhile_append, if_neg kept, lstrip]
  obtain ⟨blanks, all, closed⟩ := rstrip_blanks (lstrip text)
  refine ⟨blanks, all, ?_⟩
  rw [strip, front, rstrip_append visible, strip]
  conv_lhs => rw [closed]
  rw [List.append_assoc]

end Strip

section SplitOnce

theorem splitOnce_spec {mark text front rest : Text} (cut : splitOnce mark text = some (front, rest)) :
    text = front ++ (mark ++ rest) := by
  induction text generalizing front with
  | nil =>
    rw [splitOnce] at cut
    split at cut
    next empty =>
      cases cut
      rw [empty]
      rfl
    next => cases cut
  | cons char text ih =>
    rw [splitOnce] at cut
    split at cut
    next here =>
      cases cut
      obtain ⟨rest, same⟩ := List.isPrefixOf_iff_prefix.mp here
      rw [← same, List.drop_left, List.nil_append]
    next =>
      obtain ⟨parts, later, same⟩ := Option.map_eq_some_iff.mp cut
      cases same
      rw [ih later]
      rfl

theorem splitOnce_here (first : Char) (mark rest : Text) :
    splitOnce (first :: mark) (first :: mark ++ rest) = some ([], rest) := by
  have here : (first :: mark).isPrefixOf (first :: (mark ++ rest)) := List.isPrefixOf_iff_prefix.mpr (List.prefix_append _ _)
  rw [List.cons_append, splitOnce, if_pos here, ← List.cons_append, List.drop_left]

theorem splitOnce_other {mark text : Text} {char : Char} (different : ¬ mark <+: char :: text) :
    splitOnce mark (char :: text) = (splitOnce mark text).map fun parts => (char :: parts.1, parts.2) := by
  rw [splitOnce, if_neg (mt List.isPrefixOf_iff_prefix.mp different)]

/-- Characters that cannot begin the mark go to the first part. -/
theorem splitOnce_append {first : Char} {front : Text} (free : first ∉ front) (mark text : Text) :
    splitOnce (first :: mark) (front ++ text) =
      (splitOnce (first :: mark) text).map fun parts => (front ++ parts.1, parts.2) := by
  induction front with
  | nil => exact (congrFun Option.map_id _).symm
  | cons char front ih =>
    rw [List.mem_cons, not_or] at free
    have different : ¬ first :: mark <+: char :: (front ++ text) := by
      intro starts
      exact free.1 (List.cons_prefix_cons.mp starts).1
    rw [List.cons_append, splitOnce_other different, ih free.2, Option.map_map]
    rfl

theorem splitOnce_free {mark : Char} {text front rest : Text} (cut : splitOnce [mark] text = some (front, rest)) :
    mark ∉ front := by
  induction text generalizing front with
  | nil => cases cut
  | cons char text ih =>
    by_cases same : char = mark
    · rw [same] at cut
      have here := splitOnce_here mark [] text
      rw [List.cons_append, List.nil_append, cut] at here
      cases here
      exact List.not_mem_nil
    · have different : ¬ [mark] <+: char :: text := fun starts => same (List.cons_prefix_cons.mp starts).1.symm
      rw [splitOnce_other different] at cut
      obtain ⟨parts, later, whole⟩ := Option.map_eq_some_iff.mp cut
      cases whole
      rw [List.mem_cons, not_or]
      exact ⟨Ne.symm same, ih later⟩

theorem splitOnce_at {mark : Char} {front : Text} (free : mark ∉ front) (rest : Text) :
    splitOnce [mark] (front ++ mark :: rest) = some (front, rest) := by
  have here : splitOnce [mark] (mark :: rest) = some ([], rest) := splitOnce_here mark [] rest
  rw [splitOnce_append free, here, Option.map_some, List.append_nil]

theorem splitOnce_isSome {mark : Char} {text : Text} : (splitOnce [mark] text).isSome ↔ mark ∈ text := by
  constructor
  · intro found
    obtain ⟨⟨front, rest⟩, cut⟩ := Option.isSome_iff_exists.mp found
    rw [splitOnce_spec cut]
    exact List.mem_append_right front List.mem_cons_self
  · intro member
    obtain ⟨front, rest, same, free⟩ := List.eq_append_cons_of_mem member
    rw [same, splitOnce_at free]
    rfl

end SplitOnce

end SblPayload.Library.Text
