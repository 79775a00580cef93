import SblPayload.Library.Directory
import Mathlib.Data.List.Perm.Basic
import Mathlib.Logic.Nontrivial.Basic

/-! When the text of a directory tells what it held before some of its files were
written. The files written are known by name only; their contents may be any, and the
text may be put together in any order. -/

namespace SblPayload.Library.Directory

variable {κ α : Type}

@[simp] theorem concat_cons (entry : κ × List α) (rest : List (κ × List α)) :
    concat (entry :: rest) = entry.2 ++ concat rest := List.flatMap_cons ..

theorem concat_filter_of_empty {entries : List (κ × List α)} {kept : κ × List α → Bool}
    (empty : ∀ entry ∈ entries, kept entry = false → entry.2 = []) :
    concat (entries.filter kept) = concat entries := by
  induction entries with
  | nil => rfl
  | cons entry rest ih =>
    have later := ih (fun other member => empty other (List.mem_cons_of_mem _ member))
    cases keep : kept entry with
    | true => simp [keep, later]
    | false => simp [keep, later, empty entry (by simp) keep]

/-- Texts that may change places. -/
def Commutes (entries : List (κ × List α)) : Prop :=
  entries.Pairwise fun left right => left.2 ++ right.2 = right.2 ++ left.2

theorem Commutes.concat_perm {entries order : List (κ × List α)} (commutes : Commutes entries)
    (perm : entries.Perm order) : concat entries = concat order := by
  induction perm with
  | nil => rfl
  | cons entry _ ih => rw [concat_cons, concat_cons, ih (List.pairwise_cons.mp commutes).2]
  | swap first second rest =>
    have swapped := (List.pairwise_cons.mp commutes).1 first (by simp)
    simp only [concat_cons, ← List.append_assoc, swapped]
  | trans first _ ih later => exact (ih commutes).trans (later (first.pairwise commutes fun swapped => swapped.symm))

theorem perm_front {entries : List (κ × List α)} {entry : κ × List α} (member : entry ∈ entries) :
    ∃ rest, entries.Perm (entry :: rest) := by
  obtain ⟨front, back, rfl⟩ := List.append_of_mem member
  exact ⟨front ++ back, List.perm_middle⟩

theorem commutes_of_concat {entries : List (κ × List α)}
    (same : ∀ order, entries.Perm order → concat entries = concat order) : Commutes entries := by
  induction entries with
  | nil => exact List.Pairwise.nil
  | cons entry rest ih =>
    refine List.pairwise_cons.mpr ⟨fun other member => ?_, ih fun order perm => ?_⟩
    · obtain ⟨others, perm⟩ := perm_front member
      have first := same (entry :: other :: others) (perm.cons entry)
      have second := same (other :: entry :: others) ((perm.cons entry).trans (List.Perm.swap other entry others))
      rw [first] at second
      simp only [concat_cons, ← List.append_assoc] at second
      exact List.append_cancel_right second
    · have whole := same (entry :: order) (perm.cons entry)
      rw [concat_cons, concat_cons] at whole
      exact List.append_cancel_left whole

def SameInAnyOrder (first second : List (κ × List α)) : Prop :=
  ∀ order other, first.Perm order → second.Perm other → concat order = concat other

theorem sameInAnyOrder_iff {first second : List (κ × List α)} :
    SameInAnyOrder first second ↔ Commutes first ∧ Commutes second ∧ concat first = concat second := by
  constructor
  · intro same
    have equal := same first second (List.Perm.refl _) (List.Perm.refl _)
    refine ⟨commutes_of_concat fun order perm => ?_, commutes_of_concat fun order perm => ?_, equal⟩
    · exact equal.trans (same order second perm (List.Perm.refl _)).symm
    · exact equal.symm.trans (same first order (List.Perm.refl _) perm)
  · intro ⟨firstCommutes, secondCommutes, equal⟩ order other perm perm'
    rw [← firstCommutes.concat_perm perm, ← secondCommutes.concat_perm perm', equal]

theorem SameInAnyOrder.symm {first second : List (κ × List α)} (same : SameInAnyOrder first second) :
    SameInAnyOrder second first :=
  fun order other perm perm' => (same other order perm' perm).symm

/-- What can stand first in the one starts the text of the other. -/
theorem SameInAnyOrder.heads {first second : List (κ × List α)} (same : SameInAnyOrder first second)
    {entry other : κ × List α} (member : entry ∈ first) (member' : other ∈ second) {left right : α} {more more' : List α}
    (starts : entry.2 = left :: more) (starts' : other.2 = right :: more') : left = right := by
  obtain ⟨rest, perm⟩ := perm_front member
  obtain ⟨rest', perm'⟩ := perm_front member'
  have equal := same _ _ perm perm'
  rw [concat_cons, concat_cons, starts, starts'] at equal
  exact (List.cons.inj equal).1

/-- The files of these names, with these contents. -/
def written (names : List κ) (contents : κ → List α) : List (κ × List α) := names.map fun name => (name, contents name)

@[simp] theorem mem_written_names {names : List κ} {contents : κ → List α} {name : κ} :
    name ∈ (written names contents).map Prod.fst ↔ name ∈ names := by
  simp [written, Function.comp_def]

variable [LinearOrder κ]

/-- No way of listing the files of a directory gives the two different texts. -/
def Alike (first second : Directory κ α) : Prop := first = second ∨ SameInAnyOrder first.entries second.entries

/-- The files of every directory in an order of its own. -/
def Lists (list : Directory κ α → List (κ × List α)) : Prop :=
  ∀ directory : Directory κ α, directory.entries.Perm (list directory)

theorem alike_iff {first second : Directory κ α} :
    (∀ list : Directory κ α → List (κ × List α), Lists list → concat (list first) = concat (list second)) ↔
      Alike first second := by
  classical
  constructor
  · intro same
    by_cases equal : first = second
    · exact Or.inl equal
    refine Or.inr fun order other perm perm' => ?_
    let list := Function.update (Function.update Directory.entries second other) first order
    have lists : Lists list := by
      intro directory
      simp only [list, Function.update_apply]
      split
      next here => rwa [here]
      split
      next here => rwa [here]
      exact List.Perm.refl _
    simpa [list, Function.update_apply, Ne.symm equal] using same list lists
  · rintro (rfl | same) list lists
    · rfl
    · exact same _ _ (lists first) (lists second)

def leftovers (names : List κ) (directory : Directory κ α) : List (κ × List α) :=
  directory.entries.filter fun entry => entry.1 ∉ names

/-- The leftovers are the same; or they are blank, next to one written file at most;
or no file is written, and the order of what is there does not matter. -/
inductive Hidden (names : List κ) (first second : Directory κ α) : Prop where
  | same (equal : first.leftovers names = second.leftovers names)
  | blank (written : names ≠ []) (one : ∀ name ∈ names, ∀ other ∈ names, name = other)
      (firstBlank : ∀ entry ∈ first.leftovers names, entry.2 = [])
      (secondBlank : ∀ entry ∈ second.leftovers names, entry.2 = [])
  | unwritten (none : names = []) (firstCommutes : Commutes first.entries) (secondCommutes : Commutes second.entries)
      (equal : first.text = second.text)

theorem mem_leftovers {names : List κ} {directory : Directory κ α} {entry : κ × List α} :
    entry ∈ directory.leftovers names ↔ entry ∈ directory.entries ∧ entry.1 ∉ names := by
  rw [leftovers, List.mem_filter, decide_eq_true_eq]

section Fill

variable {names : List κ} {first second : Directory κ α} {writes : List (κ × List α)}

theorem leftovers_fill (directory : Directory κ α) (listed : ∀ name ∈ writes.map Prod.fst, name ∈ names) :
    (directory.fill writes).leftovers names = directory.leftovers names := by
  apply ext_mem ((directory.fill writes).sorted.filter _) (directory.sorted.filter _)
  intro entry
  simp only [List.mem_filter, decide_eq_true_eq]
  exact and_congr_left fun other => mem_fill_of_not_mem (fun member => other (listed entry.1 member))

theorem fill_eq (equal : first.leftovers names = second.leftovers names)
    (covered : ∀ name ∈ names, name ∈ writes.map Prod.fst) : first.fill writes = second.fill writes := by
  apply eq_of_entries
  apply ext_mem (first.fill writes).sorted (second.fill writes).sorted
  intro entry
  have agree : ∀ other : κ × List α, other.1 ∉ names → (other ∈ first.entries ↔ other ∈ second.entries) := by
    intro other unlisted
    have same : other ∈ first.leftovers names ↔ other ∈ second.leftovers names := by rw [equal]
    simpa only [mem_leftovers, unlisted, not_false_eq_true, and_true] using same
  refine fill_agree writes (· ∉ names) agree entry ?_
  by_cases listed : entry.1 ∈ names
  · exact Or.inr (covered _ listed)
  · exact Or.inl listed

theorem listed_fill (first second : Directory κ α) (covered : ∀ name ∈ names, name ∈ writes.map Prod.fst) :
    (first.fill writes).entries.filter (·.1 ∈ names) = (second.fill writes).entries.filter (·.1 ∈ names) := by
  apply ext_mem ((first.fill writes).sorted.filter _) ((second.fill writes).sorted.filter _)
  intro entry
  simp only [List.mem_filter, decide_eq_true_eq]
  refine and_congr_left fun listed => ?_
  exact fill_agree writes (fun _ => False) (fun _ impossible => impossible.elim) entry (Or.inr (covered _ listed))

/-- Next to blank leftovers the text is that of the only file written. -/
theorem concat_blank {directory : Directory κ α} (one : ∀ name ∈ names, ∀ other ∈ names, name = other)
    (blank : ∀ entry ∈ directory.leftovers names, entry.2 = []) {order : List (κ × List α)}
    (perm : directory.entries.Perm order) :
    concat order = concat (directory.entries.filter (·.1 ∈ names)) := by
  have empty : ∀ entry ∈ order, decide (entry.1 ∈ names) = false → entry.2 = [] := by
    intro entry member unlisted
    exact blank entry (mem_leftovers.mpr ⟨perm.mem_iff.mpr member, by simpa using unlisted⟩)
  rw [← concat_filter_of_empty empty]
  have single : Commutes (directory.entries.filter (·.1 ∈ names)) := by
    refine List.Pairwise.imp_of_mem ?_ (directory.sorted.filter _)
    intro left right member member' below
    have listed : left.1 ∈ names := by simpa using (List.mem_filter.mp member).2
    have listed' : right.1 ∈ names := by simpa using (List.mem_filter.mp member').2
    exact absurd (one _ listed _ listed') (ne_of_lt below)
  exact (single.concat_perm (perm.filter _)).symm

theorem Hidden.alike (hidden : Hidden names first second) (exact_names : ∀ name, name ∈ writes.map Prod.fst ↔ name ∈ names) :
    Alike (first.fill writes) (second.fill writes) := by
  have covered : ∀ name ∈ names, name ∈ writes.map Prod.fst := fun name => (exact_names name).mpr
  have listed : ∀ name ∈ writes.map Prod.fst, name ∈ names := fun name => (exact_names name).mp
  cases hidden with
  | same equal => exact Or.inl (fill_eq equal covered)
  | blank _ one firstBlank secondBlank =>
    refine Or.inr fun order other perm perm' => ?_
    rw [concat_blank one ((leftovers_fill first listed).symm ▸ firstBlank) perm,
      concat_blank one ((leftovers_fill second listed).symm ▸ secondBlank) perm', listed_fill first second covered]
  | unwritten none firstCommutes secondCommutes equal =>
    have nothing : writes = [] := by
      refine List.eq_nil_iff_forall_not_mem.mpr fun write member => ?_
      have named := listed write.1 (List.mem_map_of_mem member)
      rw [none] at named
      cases named
    rw [nothing]
    exact Or.inr (sameInAnyOrder_iff.mpr ⟨firstCommutes, secondCommutes, equal⟩)

end Fill

theorem mem_fill_written {names : List κ} {directory : Directory κ α} {name : κ} (listed : name ∈ names)
    (contents : κ → List α) : (name, contents name) ∈ (directory.fill (written names contents)).entries := by
  have consistent : ∀ one ∈ written names contents, ∀ other ∈ written names contents, one.1 = other.1 → one = other := by
    simp only [written, List.mem_map]
    rintro _ ⟨name, _, rfl⟩ _ ⟨_, _, rfl⟩ rfl
    rfl
  exact (mem_fill consistent).mpr (Or.inl (List.mem_map.mpr ⟨name, listed, rfl⟩))

section Visible

variable [Nontrivial α] {names : List κ} {first second : Directory κ α}
  (same : ∀ contents, SameInAnyOrder (first.fill (written names contents)).entries
    (second.fill (written names contents)).entries)
include same

/-- A leftover and a written file cannot both stand first. -/
theorem blank_of_same {name : κ} (listed : name ∈ names) : ∀ entry ∈ first.leftovers names, entry.2 = [] := by
  intro entry left
  cases text : entry.2 with
  | nil => rfl
  | cons symbol more =>
    obtain ⟨other, different⟩ := exists_ne symbol
    have kept := @leftovers_fill _ _ _ names (written names fun _ => [other]) first fun _ => mem_written_names.mp
    have there : entry ∈ (first.fill (written names fun _ => [other])).entries := (mem_leftovers.mp (kept ▸ left)).1
    exact absurd ((same _).heads there (mem_fill_written listed _) text rfl).symm different

theorem one_of_same : ∀ name ∈ names, ∀ other ∈ names, name = other := by
  intro name listed other listed'
  by_contra apart
  obtain ⟨symbol, symbol', different⟩ := exists_pair_ne α
  let contents : κ → List α := fun current => if current = name then [symbol] else [symbol']
  have front : contents name = symbol :: [] := if_pos rfl
  have front' : contents other = symbol' :: [] := if_neg (Ne.symm apart)
  have commutes := (sameInAnyOrder_iff.mp (same contents)).1
  have swapped := sameInAnyOrder_iff.mpr ⟨commutes, commutes, rfl⟩
  exact different (swapped.heads (mem_fill_written listed contents) (mem_fill_written listed' contents) front front')

end Visible

/-- The leftovers are hidden exactly so: nothing less makes the text independent of
what was there before. -/
theorem hidden_iff [Nontrivial α] {names : List κ} {first second : Directory κ α} :
    (∀ contents, Alike (first.fill (written names contents)) (second.fill (written names contents))) ↔
      Hidden names first second := by
  constructor
  · intro alike
    by_cases equal : first.leftovers names = second.leftovers names
    · exact .same equal
    have same : ∀ contents, SameInAnyOrder (first.fill (written names contents)).entries
        (second.fill (written names contents)).entries := by
      intro contents
      refine (alike contents).resolve_left fun filled => equal ?_
      have listed : ∀ name ∈ (written names contents).map Prod.fst, name ∈ names := fun _ => mem_written_names.mp
      rw [← leftovers_fill first listed, filled, leftovers_fill second listed]
    cases names with
    | nil =>
      obtain ⟨firstCommutes, secondCommutes, text⟩ := sameInAnyOrder_iff.mp (same fun _ => [])
      exact .unwritten rfl firstCommutes secondCommutes text
    | cons name names =>
      have listed : name ∈ name :: names := List.mem_cons_self
      exact .blank (List.cons_ne_nil _ _) (one_of_same same) (blank_of_same same listed)
        (blank_of_same (fun contents => (same contents).symm) listed)
  · exact fun hidden contents => hidden.alike fun _ => mem_written_names

end SblPayload.Library.Directory
