import SblPayload.Proofs.InfSections
import SblPayload.Proofs.MacroExpansion

/-! Macros in layers: a value refers to macros of earlier lines only. The table is
walked once, in the order of the lines, so an inner macro has had its turn before
the outer one is replaced. -/

namespace SblPayload.Proofs.MacroLayers
open Library Text Genhdr Template InfSections MacroExpansion

/-- The names are plain and new, and a value refers to earlier names only. -/
def Layered : List Text → Table → Prop
  | _, [] => True
  | earlier, (name, value) :: rest =>
    (Plain name ∧ name ∉ earlier ∧ ∀ inner ∈ references value, inner ∈ earlier) ∧ Layered (earlier ++ [name]) rest

instance : ∀ (earlier : List Text) (m : Table), Decidable (Layered earlier m)
  | _, [] => inferInstanceAs (Decidable True)
  | earlier, (name, value) :: rest =>
    have : Decidable (Layered (earlier ++ [name]) rest) := instDecidableLayered (earlier ++ [name]) rest
    inferInstanceAs (Decidable ((Plain name ∧ name ∉ earlier ∧ ∀ inner ∈ references value, inner ∈ earlier) ∧
      Layered (earlier ++ [name]) rest))

/-- Every value with the full expansions of the macros before it. -/
def expandInto : Table → Table → Table
  | known, [] => known
  | known, (name, value) :: rest => expandInto (known ++ [(name, substitute (valueOf known) value)]) rest

def expansion (m : Table) : Text → Option Text := valueOf (expandInto [] m)

structure Expanded (m : Table) (line result : Text) : Prop where
  complete : ∀ name ∈ references result, name ∉ names m
  recursive : result = substitute (expansion m) line

/-- The macros a line refers to have values without references, and no reference to
a macro comes about where a value meets what stands beside it. -/
structure OneRound (m : Table) (line : Text) : Prop where
  flat : ∀ name ∈ references line, ∀ value, valueOf m name = some value → references value = []
  apart : ∀ inner ∈ references (substitute (valueOf m) line), inner ∈ names m →
    ∃ name ∈ references line, ∃ value, valueOf m name = some value ∧ inner ∈ references value

section Layers

theorem layered_plain {earlier : List Text} {m : Table} (layered : Layered earlier m) : ∀ name ∈ names m, Plain name := by
  induction m generalizing earlier with
  | nil => exact fun name member => absurd member List.not_mem_nil
  | cons entry m ih =>
    obtain ⟨⟨plain, _, _⟩, rest⟩ := layered
    intro name member
    cases List.mem_cons.mp member with
    | inl same => exact same ▸ plain
    | inr member => exact ih rest name member

theorem layered_fresh {earlier : List Text} {m : Table} (layered : Layered earlier m) {name : Text}
    (old : name ∈ earlier) : name ∉ names m := by
  induction m generalizing earlier with
  | nil => exact List.not_mem_nil
  | cons entry m ih =>
    obtain ⟨⟨_, new, _⟩, rest⟩ := layered
    intro member
    cases List.mem_cons.mp member with
    | inl same => exact new (same ▸ old)
    | inr member => exact ih rest (List.mem_append_left _ old) member

theorem layered_distinct {earlier : List Text} {m : Table} (layered : Layered earlier m) : (names m).Nodup := by
  induction m generalizing earlier with
  | nil => exact List.nodup_nil
  | cons entry m ih =>
    obtain ⟨_, rest⟩ := layered
    have fresh := layered_fresh rest (List.mem_append_right earlier (List.mem_singleton_self entry.1))
    exact List.nodup_cons.mpr ⟨fresh, ih rest⟩

theorem layered_known {earlier : List Text} {m : Table} (layered : Layered earlier m) {name value inner : Text}
    (found : valueOf m name = some value) (refers : inner ∈ references value) : inner ∈ earlier ++ names m := by
  have member := valueOf_mem found
  clear found
  induction m generalizing earlier with
  | nil => cases member
  | cons entry m ih =>
    obtain ⟨⟨_, _, inside⟩, rest⟩ := layered
    cases List.mem_cons.mp member with
    | inl same =>
      cases same
      exact List.mem_append_left _ (inside inner refers)
    | inr member =>
      have later := ih rest member
      rw [List.append_assoc] at later
      exact later

end Layers

section Expansion

theorem valueOf_append {known : Table} {name : Text} (member : name ∈ names known) (m : Table) :
    valueOf (known ++ m) name = valueOf known name := by
  rw [valueOf, List.lookup_append]
  cases found : List.lookup name known with
  | none => exact absurd member (valueOf_none.mp found)
  | some value => exact (Option.some_or).trans found.symm

theorem expandInto_known {known m : Table} {name : Text} (member : name ∈ names known) :
    valueOf (expandInto known m) name = valueOf known name := by
  induction m generalizing known with
  | nil => rfl
  | cons entry m ih =>
    have kept : name ∈ names (known ++ [(entry.1, substitute (valueOf known) entry.2)]) := by
      rw [names, List.map_append]
      exact List.mem_append_left _ member
    exact (ih kept).trans (valueOf_append member _)

/-- The expansion of a macro is its value with the expansions of the macros in it. -/
theorem expandInto_value {known m : Table} (layered : Layered (names known) m) {name value : Text}
    (found : valueOf m name = some value) :
    valueOf (expandInto known m) name = some (substitute (valueOf (expandInto known m)) value) := by
  induction m generalizing known with
  | nil => cases found
  | cons entry m ih =>
    obtain ⟨other, held⟩ := entry
    obtain ⟨⟨_, new, inside⟩, rest⟩ := layered
    have shape : names (known ++ [(other, substitute (valueOf known) held)]) = names known ++ [other] := by
      rw [names, List.map_append]
      rfl
    by_cases same : name = other
    · rw [← same, valueOf_first] at found
      cases found
      have here : valueOf (known ++ [(name, substitute (valueOf known) value)]) name =
          some (substitute (valueOf known) value) := by
        rw [valueOf, List.lookup_append, show known.lookup name = none from valueOf_none.mpr (same ▸ new), Option.none_or,
          List.lookup_cons_self]
      have settled : substitute (valueOf known) value =
          substitute (valueOf (expandInto known ((other, value) :: m))) value := by
        apply substitute_congr
        intro inner refers
        exact (expandInto_known (inside inner (mem_references.mpr refers))).symm
      rw [← settled, expandInto, expandInto_known, ← same, here]
      rw [shape, ← same]
      exact List.mem_append_right _ (List.mem_singleton_self name)
    · rw [valueOf_later same] at found
      exact ih (shape ▸ rest) found

theorem expansion_flat {m : Table} (layered : Layered [] m) {name value : Text} (found : valueOf m name = some value)
    (flat : references value = []) : expansion m name = some value := by
  rw [expansion, @expandInto_value [] m layered name value found, substitute_free]
  intro inner refers
  rw [← mem_references, flat] at refers
  cases refers

end Expansion

section Rounds

/-- A reference to a macro that has had its turn stays to the end. -/
theorem replaceMacro_keeps {m : Table} {s name : Text} (plain : ∀ name ∈ names m, Plain name)
    (absent : name ∉ names m) (refers : Refers s name) : Refers (replaceMacro s m) name := by
  induction m generalizing s with
  | nil => exact refers
  | cons entry m ih =>
    obtain ⟨different, absent⟩ := not_or.mp (mt List.mem_cons.mpr absent)
    rw [replaceMacro_cons, replace_reference (plain entry.1 List.mem_cons_self)]
    apply ih (fun other member => plain other (List.mem_cons_of_mem _ member)) absent
    exact refers_kept (if_neg different) refers

theorem nested_left {earlier : List Text} {m : Table} (layered : Layered earlier m) {s name value inner : Text}
    (refers : Refers s name) (found : valueOf m name = some value) (nested : Refers value inner) :
    Refers (replaceMacro s m) inner := by
  induction m generalizing earlier s with
  | nil => cases found
  | cons entry m ih =>
    obtain ⟨other, held⟩ := entry
    obtain ⟨⟨plain, _, inside⟩, rest⟩ := layered
    rw [replaceMacro_cons, replace_reference plain]
    by_cases same : name = other
    · rw [← same, valueOf_first] at found
      cases found
      have known : single other value name = some value := if_pos same
      have put := refers_of_value known refers nested
      have before : inner ∈ earlier := inside inner (mem_references.mpr nested)
      exact replaceMacro_keeps (layered_plain rest) (layered_fresh rest (List.mem_append_left _ before)) put
    · rw [valueOf_later same] at found
      exact ih rest (refers_kept (if_neg same) refers) found

end Rounds

section Table

/-- The macro a line of a section of definitions defines. -/
def definition (line : Text) : Option (Text × Text) :=
  if startswith line "DEFINE ".toList then
    (splitOnce ['='] (line.drop 6)).map fun (name, value) => (strip name, strip value)
  else none

def definitions (raws : List Text) : Table :=
  (sectionLines .defines false ((raws.map cleanLine).filter (· ≠ []))).filterMap definition

theorem setItem_fresh {name value : Text} {m : Table} (fresh : name ∉ names m) :
    setItem name value m = m ++ [(name, value)] := by
  induction m with
  | nil => rfl
  | cons entry m ih =>
    obtain ⟨different, fresh⟩ := not_or.mp (mt List.mem_cons.mpr fresh)
    rw [setItem, if_neg (Ne.symm different), ih fresh, List.cons_append]

theorem defineMacro_ok {m after : Table} {line : Text} (ended : defineMacro m line = .ok after) :
    after = (definition line).elim m fun (name, value) => setItem name value m := by
  unfold defineMacro at ended
  unfold definition
  split at ended
  next opened =>
    cases cut : splitOnce ['='] (line.drop 6) with
    | none =>
      rw [cut] at ended
      cases ended
    | some parts =>
      rw [cut] at ended
      rw [if_pos opened, Option.map_some]
      exact (Except.ok.inj ended).symm
  next other =>
    rw [if_neg other]
    exact (Except.ok.inj ended).symm

/-- A table of distinct names lists the definitions in the order of their lines. -/
theorem defined_in_order {lines : List Text} {m after : Table} (ended : lines.foldlM defineMacro m = .ok after)
    (distinct : (names (m ++ lines.filterMap definition)).Nodup) : after = m ++ lines.filterMap definition := by
  induction lines generalizing m with
  | nil =>
    rw [List.filterMap_nil, List.append_nil]
    exact (Except.ok.inj ended).symm
  | cons line lines ih =>
    rw [List.foldlM_cons] at ended
    cases stepped : defineMacro m line with
    | error error =>
      rw [stepped] at ended
      cases ended
    | ok middle =>
      rw [stepped] at ended
      have changed := defineMacro_ok stepped
      rw [List.filterMap_cons] at distinct ⊢
      cases defined : definition line with
      | none =>
        rw [defined] at distinct changed
        rw [changed] at ended
        exact ih ended distinct
      | some entry =>
        rw [defined] at distinct changed
        have fresh : entry.1 ∉ names m := by
          rw [names, List.map_append, List.map_cons] at distinct
          intro member
          exact (List.nodup_append.mp distinct).2.2 _ member _ List.mem_cons_self rfl
        rw [changed.trans (setItem_fresh fresh)] at ended
        have settled := ih ended
        rw [List.append_assoc] at settled
        exact settled distinct

variable {setup : Setup}

theorem macros_of_definitions {raws : List Text} {scan : Scan}
    (reached : raws.foldlM (scanLine setup) { incPaths := [setup.infPath] } = .ok scan)
    (distinct : (names (definitions raws)).Nodup) : scan.macros = definitions raws := by
  have exclusive : Exclusive { incPaths := [setup.infPath] } := by
    intro first second held
    cases first <;> cases held
  have run := run_of_scan exclusive reached
  have collected := section_run .defines Scan.macros defineMacro (fun _ _ => rfl) (fun body => body.macros) run
  exact defined_in_order collected distinct

end Table

section Sources
variable {setup : Setup}

/-- One substitution of a line leaves no reference to a macro, exactly when the
macros in it have no references and none comes about. -/
theorem oneRound_iff {m : Table} (layered : Layered [] m) (line : Text) :
    OneRound m line ↔ ∀ name, Refers (substitute (valueOf m) line) name → name ∉ names m := by
  constructor
  · intro round inner refers member
    obtain ⟨name, inside, value, found, nested⟩ := round.apart inner (mem_references.mpr refers) member
    rw [round.flat name inside value found] at nested
    cases nested
  · intro closed
    constructor
    · intro name inside value found
      apply List.eq_nil_iff_forall_not_mem.mpr
      intro inner nested
      have put := refers_of_value found (mem_references.mp inside) (mem_references.mp nested)
      exact closed inner put (layered_known layered found nested)
    · intro inner refers member
      exact absurd member (closed inner (mem_references.mp refers))

theorem expansion_of_flat {m : Table} (layered : Layered [] m) {line : Text}
    (known : ∀ name ∈ references line, name ∈ names m)
    (flat : ∀ name ∈ references line, ∀ value, valueOf m name = some value → references value = []) :
    substitute (expansion m) line = substitute (valueOf m) line := by
  apply substitute_congr
  intro name refers
  have inside := mem_references.mpr refers
  cases found : valueOf m name with
  | none => exact absurd (known name inside) (valueOf_none.mp found)
  | some value => exact expansion_flat layered found (flat name inside value found)

theorem replaceMacro_expanded_iff {m : Table} (layered : Layered [] m) {line : Text}
    (known : ∀ name ∈ references line, name ∈ names m) :
    Expanded m line (replaceMacro line m) ↔ OneRound m line := by
  constructor
  · intro expanded
    have flat : ∀ name ∈ references line, ∀ value, valueOf m name = some value → references value = [] := by
      intro name inside value found
      apply List.eq_nil_iff_forall_not_mem.mpr
      intro inner nested
      have left := nested_left layered (mem_references.mp inside) found (mem_references.mp nested)
      exact expanded.complete inner (mem_references.mpr left) (layered_known layered found nested)
    rw [oneRound_iff layered, ← expansion_of_flat layered known flat, ← expanded.recursive]
    exact fun name refers => expanded.complete name (mem_references.mpr refers)
  · intro round
    have closed := (oneRound_iff layered line).mp round
    have once := replaceMacro_closed (layered_plain layered) closed
    constructor
    · intro name inside
      rw [once] at inside
      exact closed name (mem_references.mp inside)
    · rw [once, expansion_of_flat layered known round.flat]

/-- The path a line of sources gives, after any lines of the file. -/
theorem sources_expanded_iff {raws : List Text} {scan : Scan}
    (reached : raws.foldlM (scanLine setup) { incPaths := [setup.infPath] } = .ok scan)
    (layered : Layered [] (definitions raws)) {line : Text}
    (known : ∀ name ∈ references (strip (before '|' line)), name ∈ names (definitions raws)) :
    Expanded (definitions raws) (strip (before '|' line)) (sourceEntry scan.macros line) ↔
      OneRound (definitions raws) (strip (before '|' line)) := by
  rw [macros_of_definitions reached (layered_distinct layered), sourceEntry]
  exact replaceMacro_expanded_iff layered known

def layeredLines : List Text :=
  ["[Defines]\n".toList, "DEFINE A = x\n".toList, "DEFINE B = $(A)/y\n".toList, "[Sources]\n".toList]

def layeredScan : Scan :=
  { inSrcSection := true, incPaths := ["/m".toList]
    macros := [("A".toList, "x".toList), ("B".toList, "$(A)/y".toList)] }

/-- A line that refers to the inner macro only. -/
theorem inner_macro_expanded :
    Expanded (definitions layeredLines) "$(A)/z.c".toList (sourceEntry layeredScan.macros "$(A)/z.c | GCC".toList) ↔
      OneRound (definitions layeredLines) "$(A)/z.c".toList :=
  @sources_expanded_iff plainSetup layeredLines layeredScan (by decide) (by decide) "$(A)/z.c | GCC".toList (by decide)

/-- A line that refers to the outer macro keeps a reference to the inner one. -/
theorem outer_macro_left :
    layeredLines.foldlM (scanLine plainSetup) { incPaths := ["/m".toList] } = .ok layeredScan ∧
    Layered [] (definitions layeredLines) ∧ "B".toList ∈ names (definitions layeredLines) ∧
    sourceEntry layeredScan.macros "$(B)/z.c".toList = "$(A)/y/z.c".toList ∧
    ¬ Expanded (definitions layeredLines) "$(B)/z.c".toList (sourceEntry layeredScan.macros "$(B)/z.c".toList) := by
  refine ⟨by decide, by decide, by decide, by decide, ?_⟩
  intro expanded
  exact absurd expanded.recursive (by decide)

end Sources

end SblPayload.Proofs.MacroLayers
