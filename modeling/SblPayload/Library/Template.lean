import Mathlib.Data.List.Infix
import SblPayload.Library.PythonText

/-! Texts with references `$(NAME)`, and their substitution in one pass from left
to right. A name has none of the characters a reference is made of, so that two
references never share a character. -/

namespace SblPayload.Library.Template
open Text

def plainChar (char : Char) : Bool := char != '$' && char != '(' && char != ')'

def Plain (text : Text) : Prop := ∀ char ∈ text, plainChar char = true

instance (text : Text) : Decidable (Plain text) := List.decidableBAll (fun char => plainChar char = true) text

def reference (name : Text) : Text := '$' :: '(' :: (name ++ [')'])

def Refers (text name : Text) : Prop := Plain name ∧ reference name <:+: text

/-- The name in the reference a text begins with. -/
def nameAt : Text → Option Text
  | '$' :: '(' :: text => if (text.dropWhile plainChar).head? = some ')' then some (text.takeWhile plainChar) else none
  | _ => none

/-- The reference a text begins with, when its name has a value. -/
def valueAt (value : Text → Option Text) (text : Text) : Option (Text × Text) :=
  (nameAt text).bind fun name => (value name).map fun new => (name, new)

def references (text : Text) : List Text := text.tails.filterMap nameAt

/-- Every mark begins a reference. -/
def Referential (text : Text) : Prop := ∀ tail ∈ text.tails, tail.head? = some '$' → nameAt tail ≠ none

instance (text : Text) : Decidable (Referential text) :=
  inferInstanceAs (Decidable (∀ tail ∈ text.tails, tail.head? = some '$' → nameAt tail ≠ none))

/-- References to names that have a value are replaced by it, everything else stays.
The counter walks over a reference already replaced. -/
def substituteFrom (value : Text → Option Text) : Nat → Text → Text
  | _, [] => []
  | skip + 1, _ :: text => substituteFrom value skip text
  | 0, char :: text =>
    match valueAt value (char :: text) with
    | some (name, new) => new ++ substituteFrom value (name.length + 2) text
    | none => char :: substituteFrom value 0 text

def substitute (value : Text → Option Text) (text : Text) : Text := substituteFrom value 0 text

section References

theorem mark_not_plain {text : Text} (plain : Plain text) : '$' ∉ text := by
  intro member
  exact absurd (plain '$' member) (by decide)

theorem mark_not_in_rest {name : Text} (plain : Plain name) : '$' ∉ '(' :: (name ++ [')']) := by
  intro member
  rcases List.mem_cons.mp member with same | member
  · cases same
  · rcases List.mem_append.mp member with inside | closing
    · exact mark_not_plain plain inside
    · cases List.mem_singleton.mp closing

theorem nameAt_reference {name : Text} (plain : Plain name) (text : Text) :
    nameAt (reference name ++ text) = some name := by
  have shape : reference name ++ text = '$' :: '(' :: (name ++ ')' :: text) := by simp [reference]
  have taken : (name ++ ')' :: text).takeWhile plainChar = name := by
    rw [List.takeWhile_append_of_pos plain]
    exact List.append_nil name
  have dropped : (name ++ ')' :: text).dropWhile plainChar = ')' :: text := by
    rw [List.dropWhile_append_of_pos plain]
    rfl
  rw [shape, nameAt, dropped, taken]
  rfl

theorem nameAt_spec {text name : Text} (found : nameAt text = some name) :
    Plain name ∧ ∃ rest, text = reference name ++ rest := by
  unfold nameAt at found
  split at found
  next _ text =>
    split at found
    next closed =>
      obtain ⟨rest, closing⟩ := List.head?_eq_some_iff.mp closed
      have whole := @List.takeWhile_append_dropWhile _ plainChar text
      have named := Option.some.inj found
      rw [closing, named] at whole
      refine ⟨?_, rest, ?_⟩
      · intro char member
        rw [← named] at member
        exact List.mem_takeWhile_imp member
      · rw [← whole]
        simp [reference]
    next => cases found
  next => cases found

theorem nameAt_eq_some {text name : Text} : nameAt text = some name ↔ Plain name ∧ reference name <+: text := by
  constructor
  · intro found
    obtain ⟨plain, rest, same⟩ := nameAt_spec found
    exact ⟨plain, rest, same.symm⟩
  · intro starts
    obtain ⟨plain, rest, same⟩ := starts
    rw [← same]
    exact nameAt_reference plain rest

theorem nameAt_other {char : Char} (other : char ≠ '$') (text : Text) : nameAt (char :: text) = none := by
  unfold nameAt
  split
  next same => exact absurd (List.cons.inj same).1 other
  next => rfl

/-- Every text is made of references and of characters that begin none. -/
inductive Parsed : Text → Prop where
  | nil : Parsed []
  | char {char : Char} {text : Text} (outside : nameAt (char :: text) = none) (rest : Parsed text) : Parsed (char :: text)
  | ref {name text : Text} (plain : Plain name) (rest : Parsed text) : Parsed (reference name ++ text)

theorem parsed (text : Text) : Parsed text := by
  cases text with
  | nil => exact .nil
  | cons char text =>
    cases found : nameAt (char :: text) with
    | none => exact .char found (parsed text)
    | some name =>
      obtain ⟨plain, rest, same⟩ := nameAt_spec found
      have shorter : rest.length < text.length + 1 := by
        have lengths := congrArg List.length same
        simp only [List.length_cons, List.length_append, reference] at lengths
        omega
      rw [same]
      exact .ref plain (parsed rest)
termination_by text.length

end References

section Refers

theorem mem_references {text name : Text} : name ∈ references text ↔ Refers text name := by
  rw [references, List.mem_filterMap, Refers, List.infix_iff_prefix_suffix]
  constructor
  · intro found
    obtain ⟨tail, member, named⟩ := found
    obtain ⟨plain, starts⟩ := nameAt_eq_some.mp named
    exact ⟨plain, tail, starts, (List.mem_tails _ _).mp member⟩
  · intro refers
    obtain ⟨plain, tail, starts, suffix⟩ := refers
    exact ⟨tail, (List.mem_tails _ _).mpr suffix, nameAt_eq_some.mpr ⟨plain, starts⟩⟩

theorem not_refers_nil (name : Text) : ¬ Refers [] name := by
  intro refers
  cases List.infix_nil.mp refers.2

/-- A reference is not found across characters that do not begin one. -/
theorem refers_of_append {front text name : Text} (free : '$' ∉ front) (refers : Refers (front ++ text) name) :
    Refers text name := by
  induction front with
  | nil => exact refers
  | cons char front ih =>
    rw [List.mem_cons, not_or] at free
    rcases List.infix_cons_iff.mp refers.2 with here | later
    · obtain ⟨rest, same⟩ := here
      exact absurd (List.cons.inj same).1 free.1
    · exact ih free.2 ⟨refers.1, later⟩

theorem refers_append_right {text name : Text} (front : Text) (refers : Refers text name) : Refers (front ++ text) name :=
  ⟨refers.1, refers.2.trans (List.suffix_append front text).isInfix⟩

theorem refers_append_left {text name : Text} (rest : Text) (refers : Refers text name) : Refers (text ++ rest) name :=
  ⟨refers.1, refers.2.trans (List.prefix_append text rest).isInfix⟩

theorem refers_char {char : Char} {text name : Text} (outside : nameAt (char :: text) = none) :
    Refers (char :: text) name ↔ Refers text name := by
  constructor
  · intro refers
    rcases List.infix_cons_iff.mp refers.2 with here | later
    · rw [nameAt_eq_some.mpr ⟨refers.1, here⟩] at outside
      cases outside
    · exact ⟨refers.1, later⟩
  · exact refers_append_right [char]

theorem refers_ref {other text name : Text} (plain : Plain other) :
    Refers (reference other ++ text) name ↔ name = other ∨ Refers text name := by
  constructor
  · intro refers
    rcases List.infix_cons_iff.mp refers.2 with here | later
    · have first := nameAt_eq_some.mpr ⟨refers.1, here⟩
      have second := nameAt_reference plain text
      exact Or.inl (Option.some.inj (first.symm.trans second))
    · exact Or.inr (refers_of_append (mark_not_in_rest plain) ⟨refers.1, later⟩)
  · intro refers
    cases refers with
    | inl same =>
      rw [same]
      exact ⟨plain, (List.prefix_append _ _).isInfix⟩
    | inr later => exact refers_append_right _ later

theorem referential_append (front : Text) {text : Text} (referential : Referential (front ++ text)) :
    Referential text := by
  intro tail member
  have suffix := ((List.mem_tails _ _).mp member).trans (List.suffix_append front text)
  exact referential tail ((List.mem_tails _ _).mpr suffix)

end Refers

section Substitution
variable (value : Text → Option Text)

theorem substituteFrom_skip (skip : Nat) (text : Text) :
    substituteFrom value skip text = substitute value (text.drop skip) := by
  induction text generalizing skip with
  | nil => rw [List.drop_nil, substitute, substituteFrom, substituteFrom]
  | cons char text ih =>
    cases skip with
    | zero => rfl
    | succ skip => exact ih skip

/-- A character at which no reference with a value begins stays. -/
theorem substitute_cons {char : Char} {text : Text}
    (unknown : ∀ name, nameAt (char :: text) = some name → value name = none) :
    substitute value (char :: text) = char :: substitute value text := by
  have none : valueAt value (char :: text) = none := by
    cases found : nameAt (char :: text) with
    | none => rw [valueAt, found, Option.bind_none]
    | some name => rw [valueAt, found, Option.bind_some, unknown name found, Option.map_none]
  rw [substitute, substituteFrom, none]
  rfl

theorem substitute_known {char : Char} {text name new : Text} (found : nameAt (char :: text) = some name)
    (known : value name = some new) :
    substitute value (char :: text) = new ++ substitute value (text.drop (name.length + 2)) := by
  have here : valueAt value (char :: text) = some (name, new) := by
    rw [valueAt, found, Option.bind_some, known, Option.map_some]
  rw [substitute, substituteFrom, here, ← substituteFrom_skip]

theorem substitute_char {char : Char} {text : Text} (outside : nameAt (char :: text) = none) :
    substitute value (char :: text) = char :: substitute value text := by
  apply substitute_cons
  intro name found
  rw [outside] at found
  cases found

/-- Characters that begin no reference stay in front of any text. -/
theorem substitute_append {front : Text} (free : '$' ∉ front) (text : Text) :
    substitute value (front ++ text) = front ++ substitute value text := by
  induction front with
  | nil => rfl
  | cons char front ih =>
    rw [List.mem_cons, not_or] at free
    rw [List.cons_append, substitute_char value (nameAt_other (Ne.symm free.1) _), ih free.2, List.cons_append]

theorem substitute_ref {name : Text} (plain : Plain name) (text : Text) :
    substitute value (reference name ++ text) = (value name).getD (reference name) ++ substitute value text := by
  have found := nameAt_reference plain text
  cases known : value name with
  | none =>
    have unknown : ∀ other, nameAt (reference name ++ text) = some other → value other = none := by
      intro other same
      rw [found] at same
      rw [← Option.some.inj same, known]
    have first := substitute_cons value unknown
    rw [List.append_eq, substitute_append value (mark_not_in_rest plain)] at first
    exact first
  | some new =>
    have walked : ('(' :: (name ++ [')']) ++ text).drop (name.length + 2) = text := by
      apply List.drop_left'
      simp
    have replaced := substitute_known value found known
    rw [List.append_eq, walked] at replaced
    exact replaced

end Substitution

section Values

/-- One name with a value. -/
def single (name new : Text) : Text → Option Text := fun other => if other = name then some new else none

def either (first second : Text → Option Text) : Text → Option Text := fun name => (first name).or (second name)

theorem replace_append {old : Text} {mark : Char} (new : Text) {front : Text} (free : mark ∉ front) (text : Text) :
    replace (front ++ text) (mark :: old) new = front ++ replace text (mark :: old) new := by
  induction front with
  | nil => rfl
  | cons char front ih =>
    rw [List.mem_cons, not_or] at free
    have different : ¬ mark :: old <+: char :: (front ++ text) := by
      intro starts
      obtain ⟨rest, same⟩ := starts
      exact free.1 (List.cons.inj same).1
    rw [List.cons_append, replace_cons new different, ih free.2, List.cons_append]

/-- Replacing one reference as a string substitutes one name. -/
theorem replace_reference {name : Text} (plain : Plain name) (new text : Text) :
    replace text (reference name) new = substitute (single name new) text := by
  induction parsed text with
  | nil => rfl
  | @char char text outside rest ih =>
    have different : ¬ reference name <+: char :: text := by
      intro starts
      rw [nameAt_eq_some.mpr ⟨plain, starts⟩] at outside
      cases outside
    rw [replace_cons new different, substitute_char _ outside, ih]
  | @ref other text inside rest ih =>
    rw [substitute_ref _ inside, ← ih]
    by_cases same : other = name
    · rw [same, single, if_pos rfl, Option.getD_some]
      exact replace_occurrence '$' _ new text
    · have different : ¬ reference name <+: reference other ++ text := by
        intro starts
        have first := nameAt_eq_some.mpr ⟨plain, starts⟩
        rw [nameAt_reference inside text] at first
        exact same (Option.some.inj first)
      rw [single, if_neg same, Option.getD_none]
      have first := replace_cons new different
      rw [List.append_eq, reference, replace_append new (mark_not_in_rest inside)] at first
      exact first

theorem substitute_congr {first second : Text → Option Text} {text : Text}
    (same : ∀ name, Refers text name → first name = second name) : substitute first text = substitute second text := by
  induction parsed text with
  | nil => rfl
  | char outside rest ih =>
    rw [substitute_char _ outside, substitute_char _ outside,
      ih fun name refers => same name ((refers_char outside).mpr refers)]
  | @ref other text plain rest ih =>
    rw [substitute_ref _ plain, substitute_ref _ plain, same other ((refers_ref plain).mpr (Or.inl rfl)),
      ih fun name refers => same name ((refers_ref plain).mpr (Or.inr refers))]

theorem substitute_none (text : Text) : substitute (fun _ => none) text = text := by
  induction parsed text with
  | nil => rfl
  | char outside rest ih => rw [substitute_char _ outside, ih]
  | ref plain rest ih => rw [substitute_ref _ plain, ih, Option.getD_none]

/-- A text that refers to no name with a value stays as it is. -/
theorem substitute_free {value : Text → Option Text} {text : Text}
    (free : ∀ name, Refers text name → value name = none) : substitute value text = text :=
  (substitute_congr free).trans (substitute_none text)

/-- References to names without a value stay. -/
theorem refers_kept {value : Text → Option Text} {text name : Text} (unknown : value name = none)
    (refers : Refers text name) : Refers (substitute value text) name := by
  induction parsed text with
  | nil => exact absurd refers (not_refers_nil name)
  | char outside rest ih =>
    rw [substitute_char _ outside]
    exact refers_append_right [_] (ih ((refers_char outside).mp refers))
  | ref plain rest ih =>
    rw [substitute_ref _ plain]
    cases (refers_ref plain).mp refers with
    | inl same =>
      rw [← same, unknown, Option.getD_none]
      exact ⟨refers.1, (List.prefix_append _ _).isInfix⟩
    | inr later => exact refers_append_right _ (ih later)

/-- What a value refers to, the text it is put into refers to. -/
theorem refers_of_value {value : Text → Option Text} {text name new inner : Text} (known : value name = some new)
    (refers : Refers text name) (nested : Refers new inner) : Refers (substitute value text) inner := by
  induction parsed text with
  | nil => exact absurd refers (not_refers_nil name)
  | char outside rest ih =>
    rw [substitute_char _ outside]
    exact refers_append_right [_] (ih ((refers_char outside).mp refers))
  | ref plain rest ih =>
    rw [substitute_ref _ plain]
    cases (refers_ref plain).mp refers with
    | inl same =>
      rw [← same, known, Option.getD_some]
      exact refers_append_left _ nested
    | inr later => exact refers_append_right _ (ih later)

/-- Values without marks bring no references, and join with nothing to one. -/
theorem refers_flat {value : Text → Option Text} {text name : Text} (referential : Referential text)
    (flat : ∀ other new, value other = some new → '$' ∉ new) (refers : Refers (substitute value text) name) :
    value name = none := by
  induction parsed text with
  | nil => exact absurd refers (not_refers_nil name)
  | @char char text outside rest ih =>
    have plain : '$' ∉ [char] := by
      intro member
      rw [List.mem_singleton] at member
      exact referential (char :: text) ((List.mem_tails _ _).mpr List.suffix_rfl) (member ▸ rfl) outside
    rw [substitute_char _ outside] at refers
    exact ih (referential_append [char] referential) (refers_of_append plain refers)
  | @ref other text plain rest ih =>
    have later := referential_append _ referential
    rw [substitute_ref _ plain] at refers
    cases known : value other with
    | none =>
      rw [known, Option.getD_none] at refers
      cases (refers_ref plain).mp refers with
      | inl same => rw [same, known]
      | inr refers => exact ih later refers
    | some new =>
      rw [known, Option.getD_some] at refers
      exact ih later (refers_of_append (flat other new known) refers)

end Values

section Composition
variable {first second : Text → Option Text}

/-- A prefix that runs over a common front stays one when what follows changes. -/
theorem prefix_append_mono {chunk front rest other : Text} (starts : chunk <+: front ++ rest)
    (moves : ∀ part, part <:+ chunk → part <+: rest → part <+: other) : chunk <+: front ++ other := by
  induction front generalizing chunk with
  | nil => exact moves chunk List.suffix_rfl starts
  | cons char front ih =>
    cases chunk with
    | nil => exact List.nil_prefix
    | cons head chunk =>
      obtain ⟨same, starts⟩ := List.cons_prefix_cons.mp starts
      apply List.cons_prefix_cons.mpr
      refine ⟨same, ih starts ?_⟩
      intro part inside
      exact moves part (inside.trans (List.suffix_cons head chunk))

/-- A second substitution moves no character that stands behind the first. -/
theorem prefix_kept {chunk text : Text} (free : '$' ∉ chunk) (starts : chunk <+: substitute first text) :
    chunk <+: substitute (either first second) text := by
  induction parsed text generalizing chunk with
  | nil => exact starts
  | @char char text outside rest ih =>
    rw [substitute_char _ outside] at starts ⊢
    apply @prefix_append_mono chunk [char] _ _ starts
    intro part inside
    exact ih fun member => free (inside.subset member)
  | @ref name text plain rest ih =>
    rw [substitute_ref _ plain] at starts ⊢
    cases known : first name with
    | none =>
      rw [known, Option.getD_none] at starts
      cases chunk with
      | nil => exact List.nil_prefix
      | cons head chunk =>
        have same := (List.cons_prefix_cons.mp starts).1
        exact absurd (same ▸ List.mem_cons_self) free
    | some new =>
      rw [known, Option.getD_some] at starts
      rw [either, known, Option.some_or, Option.getD_some]
      apply prefix_append_mono starts
      intro part inside
      exact ih fun member => free (inside.subset member)

/-- A reference that stands across two texts after the first substitution still
stands there after both. -/
theorem refers_across {char : Char} {front text name : Text} (plain : Plain name)
    (starts : reference name <+: char :: (front ++ substitute first text)) :
    Refers (char :: (front ++ substitute (either first second) text)) name := by
  obtain ⟨same, starts⟩ := List.cons_prefix_cons.mp starts
  have later := prefix_append_mono starts fun part inside =>
    @prefix_kept first second _ _ fun member => mark_not_in_rest plain (inside.subset member)
  exact ⟨plain, (List.cons_prefix_cons.mpr ⟨same, later⟩).isInfix⟩

/-- A second substitution leaves a value alone when no reference begins in it. -/
theorem substitute_front {front text : Text}
    (closed : ∀ name, Refers (front ++ substitute (either first second) text) name → second name = none) :
    substitute second (front ++ substitute first text) = front ++ substitute second (substitute first text) := by
  induction front with
  | nil => rfl
  | cons char front ih =>
    have unknown : ∀ name, nameAt (char :: (front ++ substitute first text)) = some name → second name = none := by
      intro name found
      obtain ⟨plain, starts⟩ := nameAt_eq_some.mp found
      exact closed name (refers_across plain starts)
    rw [List.cons_append, substitute_cons second unknown, ih fun name refers => closed name (refers_append_right [char] refers),
      List.cons_append]

/-- Two substitutions one after the other are a single one, when that leaves no
reference the second has a value for. -/
theorem substitute_either {text : Text}
    (closed : ∀ name, Refers (substitute (either first second) text) name → second name = none) :
    substitute second (substitute first text) = substitute (either first second) text := by
  induction parsed text with
  | nil => rfl
  | @char char text outside rest ih =>
    rw [substitute_char _ outside] at closed
    have kept := @substitute_front first second [char] text closed
    rw [substitute_char first outside, substitute_char _ outside,
      ← ih fun name refers => closed name (refers_append_right [char] refers)]
    exact kept
  | @ref name text plain rest ih =>
    rw [substitute_ref _ plain] at closed
    have settled := ih fun inner refers => closed inner (refers_append_right _ refers)
    rw [substitute_ref first plain, substitute_ref _ plain, ← settled]
    cases known : first name with
    | none => rw [Option.getD_none, substitute_ref second plain, either, known, Option.none_or]
    | some new =>
      rw [either, known, Option.some_or, Option.getD_some] at closed
      rw [either, known, Option.some_or, Option.getD_some, substitute_front closed]

end Composition

end SblPayload.Library.Template
