import SblPayload.Genhdr.InfScan
import SblPayload.Library.Template

/-! The sequential replacement of macros against substitution in one pass, and
against the full expansion of macros that are defined by other macros. -/

namespace SblPayload.Proofs.MacroExpansion
open Library Text Genhdr Template

abbrev Table := List (Text × Text)

def names (m : Table) : List Text := m.map Prod.fst

def valueOf (m : Table) : Text → Option Text := fun name => m.lookup name

section Lookup

theorem valueOf_cons (name value : Text) (m : Table) :
    valueOf ((name, value) :: m) = either (single name value) (valueOf m) := by
  funext other
  rw [valueOf, List.lookup_cons, either, single]
  by_cases same : other = name
  · rw [if_pos same, Option.some_or, beq_iff_eq.mpr same]
  · rw [if_neg same, Option.none_or, beq_eq_false_iff_ne.mpr same]
    rfl

theorem valueOf_first (name value : Text) (m : Table) : valueOf ((name, value) :: m) name = some value := by
  rw [valueOf_cons, either, single, if_pos rfl, Option.some_or]

theorem valueOf_later {name other : Text} (different : name ≠ other) (value : Text) (m : Table) :
    valueOf ((other, value) :: m) name = valueOf m name := by
  rw [valueOf_cons, either, single, if_neg different, Option.none_or]

theorem valueOf_none {m : Table} {name : Text} : valueOf m name = none ↔ name ∉ names m := by
  rw [valueOf, List.lookup_eq_none_iff, names, List.mem_map]
  constructor
  · intro different found
    obtain ⟨entry, member, same⟩ := found
    exact bne_iff_ne.mp (different entry member) same.symm
  · intro absent entry member
    apply bne_iff_ne.mpr
    intro same
    exact absent ⟨entry, member, same.symm⟩

theorem valueOf_mem {m : Table} {name value : Text} (found : valueOf m name = some value) : (name, value) ∈ m := by
  obtain ⟨before, after, same, _⟩ := List.lookup_eq_some_iff.mp found
  rw [same]
  exact List.mem_append_right before List.mem_cons_self

theorem valueOf_iff {m : Table} (distinct : (names m).Nodup) {name value : Text} :
    valueOf m name = some value ↔ (name, value) ∈ m := by
  refine ⟨valueOf_mem, ?_⟩
  induction m with
  | nil => exact fun member => absurd member List.not_mem_nil
  | cons entry m ih =>
    obtain ⟨other, held⟩ := entry
    obtain ⟨fresh, distinct⟩ := List.nodup_cons.mp distinct
    intro member
    rw [valueOf_cons, either, single]
    cases List.mem_cons.mp member with
    | inl same =>
      cases same
      rw [if_pos rfl, Option.some_or]
    | inr member =>
      have different : name ≠ other := by
        intro same
        rw [same] at member
        exact fresh (List.mem_map.mpr ⟨_, member, rfl⟩)
      rw [if_neg different, Option.none_or]
      exact ih distinct member

/-- The order of a table of distinct names does not matter for what they mean. -/
theorem valueOf_perm {m other : Table} (permuted : m.Perm other) (distinct : (names m).Nodup) :
    valueOf other = valueOf m := by
  have otherDistinct : (names other).Nodup := (permuted.map Prod.fst).nodup_iff.mp distinct
  funext name
  apply Option.ext
  intro value
  rw [valueOf_iff distinct, valueOf_iff otherDistinct]
  exact permuted.mem_iff.symm

end Lookup

section Rounds

theorem replaceMacro_cons (s name value : Text) (m : Table) :
    replaceMacro s ((name, value) :: m) = replaceMacro (replace s (reference name) value) m := rfl

/-- The rounds of the loop are one substitution, as long as that leaves no reference
to a macro. -/
theorem replaceMacro_closed {m : Table} {s : Text} (plain : ∀ name ∈ names m, Plain name)
    (closed : ∀ name, Refers (substitute (valueOf m) s) name → name ∉ names m) :
    replaceMacro s m = substitute (valueOf m) s := by
  induction m generalizing s with
  | nil => exact (substitute_none s).symm
  | cons entry m ih =>
    obtain ⟨name, value⟩ := entry
    have composed : substitute (valueOf m) (substitute (single name value) s) =
        substitute (valueOf ((name, value) :: m)) s := by
      rw [valueOf_cons]
      apply substitute_either
      intro other refers
      rw [← valueOf_cons] at refers
      exact valueOf_none.mpr fun member => closed other refers (List.mem_cons_of_mem name member)
    rw [replaceMacro_cons, replace_reference (plain name List.mem_cons_self), ih, composed]
    · exact fun other member => plain other (List.mem_cons_of_mem name member)
    · intro other refers member
      rw [composed] at refers
      exact closed other refers (List.mem_cons_of_mem name member)

theorem replaceMacro_free {m : Table} {s : Text} (plain : ∀ name ∈ names m, Plain name)
    (free : ∀ name, Refers s name → name ∉ names m) : replaceMacro s m = s := by
  have same : substitute (valueOf m) s = s := substitute_free fun name refers => valueOf_none.mpr (free name refers)
  rw [replaceMacro_closed plain (by rw [same]; exact free), same]

end Rounds

section Flat

/-- No name and no value has a character that references are made of. -/
def Flat (m : Table) : Prop := ∀ entry ∈ m, Plain entry.1 ∧ Plain entry.2

instance (m : Table) : Decidable (Flat m) := inferInstanceAs (Decidable (∀ entry ∈ m, Plain entry.1 ∧ Plain entry.2))

theorem Flat.plain {m : Table} (flat : Flat m) : ∀ name ∈ names m, Plain name := by
  intro name member
  obtain ⟨entry, inside, same⟩ := List.mem_map.mp member
  exact same ▸ (flat entry inside).1

theorem Flat.closed {m : Table} (flat : Flat m) {s : Text} (referential : Referential s) :
    ∀ name, Refers (substitute (valueOf m) s) name → name ∉ names m := by
  intro name refers
  apply valueOf_none.mp
  apply refers_flat referential _ refers
  intro other value found
  exact mark_not_plain (flat _ (valueOf_mem found)).2

theorem replaceMacro_simultaneous {m : Table} {s : Text} (flat : Flat m) (referential : Referential s) :
    replaceMacro s m = substitute (valueOf m) s ∧
    (∀ other, m.Perm other → (names m).Nodup → replaceMacro s other = replaceMacro s m) ∧
    replaceMacro (replaceMacro s m) m = replaceMacro s m := by
  have once := replaceMacro_closed flat.plain (flat.closed referential)
  refine ⟨once, ?_, ?_⟩
  · intro other permuted distinct
    have otherFlat : Flat other := fun entry member => flat entry (permuted.mem_iff.mpr member)
    rw [replaceMacro_closed otherFlat.plain (otherFlat.closed referential), valueOf_perm permuted distinct, once]
  · rw [once]
    exact replaceMacro_free flat.plain (flat.closed referential)

def folders : Table := [("MPY".toList, "mpy/py".toList), ("EXT".toList, "Extra".toList)]

def entry : Text := "$(EXT)/a(1)/$(PORT)$(MPY).c".toList

theorem folders_simultaneous :
    replaceMacro entry folders = substitute (valueOf folders) entry ∧
    (∀ other, folders.Perm other → (names folders).Nodup → replaceMacro entry other = replaceMacro entry folders) ∧
    replaceMacro (replaceMacro entry folders) folders = replaceMacro entry folders :=
  replaceMacro_simultaneous (by decide) (by decide)

end Flat

end SblPayload.Proofs.MacroExpansion
