import Mathlib.Data.List.Sort
import Mathlib.Order.Lex

/-! A directory of text files, listed by name. Its text is the concatenation of
all its files, so it shows whatever the directory held before some of the files
were written again. -/

namespace SblPayload.Library

/-- The files of a directory in increasing order of their names, each name once. -/
structure Directory (κ α : Type) [LinearOrder κ] where
  entries : List (κ × List α)
  sorted : entries.Pairwise fun left right => left.1 < right.1

namespace Directory

variable {κ α : Type} [LinearOrder κ]

def insertEntry (name : κ) (text : List α) : List (κ × List α) → List (κ × List α)
  | [] => [(name, text)]
  | (other, old) :: rest =>
    if name < other then (name, text) :: (other, old) :: rest
    else if name = other then (name, text) :: rest
    else (other, old) :: insertEntry name text rest

theorem mem_insertEntry {name : κ} {text : List α} {entries : List (κ × List α)}
    (sorted : entries.Pairwise fun left right => left.1 < right.1) {entry : κ × List α} :
    entry ∈ insertEntry name text entries ↔ entry = (name, text) ∨ entry.1 ≠ name ∧ entry ∈ entries := by
  induction entries with
  | nil => simp [insertEntry]
  | cons first rest ih =>
    obtain ⟨other, old⟩ := first
    obtain ⟨later, sortedRest⟩ := List.pairwise_cons.mp sorted
    simp only [insertEntry]
    split
    next below =>
      have absent : ∀ item ∈ (other, old) :: rest, item.1 ≠ name := by
        intro item member
        rcases List.mem_cons.mp member with rfl | member
        · exact ne_of_gt below
        · exact ne_of_gt (below.trans (later item member))
      rw [List.mem_cons]
      exact or_congr_right ⟨fun member => ⟨absent entry member, member⟩, And.right⟩
    next notBelow =>
      split
      next same =>
        subst same
        have absent : ∀ item ∈ rest, item.1 ≠ name := fun item member => ne_of_gt (later item member)
        simp only [List.mem_cons]
        constructor
        · rintro (rfl | member)
          · exact Or.inl rfl
          · exact Or.inr ⟨absent entry member, Or.inr member⟩
        · rintro (rfl | ⟨different, rfl | member⟩)
          · exact Or.inl rfl
          · exact absurd rfl different
          · exact Or.inr member
      next different =>
        simp only [List.mem_cons, ih sortedRest]
        constructor
        · rintro (rfl | rfl | ⟨unlike, member⟩)
          · exact Or.inr ⟨fun same => different same.symm, Or.inl rfl⟩
          · exact Or.inl rfl
          · exact Or.inr ⟨unlike, Or.inr member⟩
        · rintro (rfl | ⟨unlike, rfl | member⟩)
          · exact Or.inr (Or.inl rfl)
          · exact Or.inl rfl
          · exact Or.inr (Or.inr ⟨unlike, member⟩)

theorem insertEntry_sorted (name : κ) (text : List α) {entries : List (κ × List α)}
    (sorted : entries.Pairwise fun left right => left.1 < right.1) :
    (insertEntry name text entries).Pairwise fun left right => left.1 < right.1 := by
  induction entries with
  | nil => simp [insertEntry]
  | cons first rest ih =>
    obtain ⟨other, old⟩ := first
    obtain ⟨later, sortedRest⟩ := List.pairwise_cons.mp sorted
    simp only [insertEntry]
    split
    next below =>
      refine List.pairwise_cons.mpr ⟨?_, sorted⟩
      intro item member
      rcases List.mem_cons.mp member with rfl | member
      · exact below
      · exact below.trans (later item member)
    next notBelow =>
      split
      next same =>
        subst same
        exact List.pairwise_cons.mpr ⟨later, sortedRest⟩
      next different =>
        refine List.pairwise_cons.mpr ⟨?_, ih sortedRest⟩
        intro item member
        rcases (mem_insertEntry sortedRest).mp member with rfl | ⟨_, member⟩
        · exact lt_of_le_of_ne (not_lt.mp notBelow) (Ne.symm different)
        · exact later item member

def empty : Directory κ α := ⟨[], List.Pairwise.nil⟩

def insert (directory : Directory κ α) (name : κ) (text : List α) : Directory κ α :=
  ⟨insertEntry name text directory.entries, insertEntry_sorted name text directory.sorted⟩

def fill (directory : Directory κ α) (writes : List (κ × List α)) : Directory κ α :=
  writes.foldl (fun current (name, text) => current.insert name text) directory

def concat (entries : List (κ × List α)) : List α := entries.flatMap Prod.snd

def text (directory : Directory κ α) : List α := concat directory.entries

theorem mem_insert {directory : Directory κ α} {name : κ} {text : List α} {entry : κ × List α} :
    entry ∈ (directory.insert name text).entries ↔
      entry = (name, text) ∨ entry.1 ≠ name ∧ entry ∈ directory.entries :=
  mem_insertEntry directory.sorted

/-- Writing the same files leaves two directories equal at every name where they
were equal and at every name written. -/
theorem fill_agree {first second : Directory κ α} (writes : List (κ × List α)) (agreed : κ → Prop)
    (agree : ∀ entry : κ × List α, agreed entry.1 → (entry ∈ first.entries ↔ entry ∈ second.entries)) :
    ∀ entry : κ × List α, agreed entry.1 ∨ entry.1 ∈ writes.map Prod.fst →
      (entry ∈ (first.fill writes).entries ↔ entry ∈ (second.fill writes).entries) := by
  induction writes generalizing first second agreed with
  | nil =>
    intro entry either
    rcases either with held | member
    · exact agree entry held
    · cases member
  | cons write writes ih =>
    obtain ⟨name, text⟩ := write
    intro entry either
    refine @ih (first.insert name text) (second.insert name text) (fun other => agreed other ∨ other = name) ?_ entry ?_
    · intro item held
      rw [mem_insert, mem_insert]
      by_cases same : item.1 = name
      · simp [same]
      · simp only [same, or_false] at held
        simp only [agree item held]
    · rcases either with held | member
      · exact Or.inl (Or.inl held)
      · rcases List.mem_cons.mp member with same | later
        · exact Or.inl (Or.inr same)
        · exact Or.inr later

theorem mem_fill_of_not_mem {directory : Directory κ α} {writes : List (κ × List α)} {entry : κ × List α}
    (absent : entry.1 ∉ writes.map Prod.fst) :
    entry ∈ (directory.fill writes).entries ↔ entry ∈ directory.entries := by
  induction writes generalizing directory with
  | nil => rfl
  | cons write writes ih =>
    obtain ⟨name, text⟩ := write
    simp only [List.map_cons, List.mem_cons, not_or] at absent
    change entry ∈ ((directory.insert name text).fill writes).entries ↔ _
    rw [ih absent.2, mem_insert]
    constructor
    · rintro (rfl | ⟨_, member⟩)
      · exact absurd rfl absent.1
      · exact member
    · exact fun member => Or.inr ⟨absent.1, member⟩

theorem ext_mem {first second : List (κ × List α)}
    (firstSorted : first.Pairwise fun left right => left.1 < right.1)
    (secondSorted : second.Pairwise fun left right => left.1 < right.1)
    (same : ∀ entry, entry ∈ first ↔ entry ∈ second) : first = second := by
  have irreflexive : Std.Irrefl fun left right : κ × List α => left.1 < right.1 := ⟨fun entry => lt_irrefl entry.1⟩
  have antisymmetric : Std.Antisymm fun left right : κ × List α => left.1 < right.1 :=
    ⟨fun _ _ below above => absurd below (lt_asymm above)⟩
  exact firstSorted.eq_of_mem_iff secondSorted same

/-- Writes that say one thing of each name are all there in the end, in whatever order
they were made. -/
theorem mem_fill {directory : Directory κ α} {writes : List (κ × List α)}
    (consistent : ∀ first ∈ writes, ∀ second ∈ writes, first.1 = second.1 → first = second) {entry : κ × List α} :
    entry ∈ (directory.fill writes).entries ↔
      entry ∈ writes ∨ entry.1 ∉ writes.map Prod.fst ∧ entry ∈ directory.entries := by
  induction writes generalizing directory with
  | nil =>
    change entry ∈ directory.entries ↔ _
    simp only [List.not_mem_nil, List.map_nil, not_false_eq_true, true_and, false_or]
  | cons write writes ih =>
    have later := fun first member second among => consistent first (List.mem_cons_of_mem write member) second
      (List.mem_cons_of_mem write among)
    change entry ∈ ((directory.insert write.1 write.2).fill writes).entries ↔ _
    rw [ih later, mem_insert, List.mem_cons, List.map_cons, List.mem_cons, not_or]
    constructor
    · rintro (member | ⟨absent, same | ⟨other, member⟩⟩)
      · exact Or.inl (Or.inr member)
      · exact Or.inl (Or.inl same)
      · exact Or.inr ⟨⟨other, absent⟩, member⟩
    · rintro ((same | member) | ⟨⟨other, absent⟩, member⟩)
      · by_cases again : entry.1 ∈ writes.map Prod.fst
        · obtain ⟨second, among, named⟩ := List.mem_map.mp again
          have equal : second = entry :=
            consistent second (List.mem_cons_of_mem write among) entry (same ▸ List.mem_cons_self) named
          exact Or.inl (equal ▸ among)
        · exact Or.inr ⟨again, Or.inl same⟩
      · exact Or.inl member
      · exact Or.inr ⟨absent, Or.inr ⟨other, member⟩⟩

theorem eq_of_entries {first second : Directory κ α} (same : first.entries = second.entries) : first = second := by
  cases first
  cases second
  cases same
  rfl

/-- The order of the writes and their repetition do not show. -/
theorem fill_congr (directory : Directory κ α) {writes others : List (κ × List α)}
    (consistent : ∀ first ∈ writes, ∀ second ∈ writes, first.1 = second.1 → first = second)
    (same : ∀ entry, entry ∈ writes ↔ entry ∈ others) : directory.fill writes = directory.fill others := by
  have alsoConsistent : ∀ first ∈ others, ∀ second ∈ others, first.1 = second.1 → first = second :=
    fun first member second among => consistent first ((same first).mpr member) second ((same second).mpr among)
  have names (name : κ) : name ∈ writes.map Prod.fst ↔ name ∈ others.map Prod.fst := by
    simp only [List.mem_map, same]
  apply eq_of_entries
  apply ext_mem (directory.fill writes).sorted (directory.fill others).sorted
  intro entry
  rw [mem_fill consistent, mem_fill alsoConsistent, same, names]

end Directory

end SblPayload.Library
