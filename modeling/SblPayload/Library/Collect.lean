import Mathlib.Data.List.Infix

/-! What a reader collects from a sequence, item by item. An item may be judged by
everything before it. Two readers that agree after every item agree on each item,
and the other way round. -/

namespace SblPayload.Library

variable {A B : Type}

def collectFrom (pick : List A → A → List B) : List A → List A → List B
  | _, [] => []
  | front, item :: rest => pick front item ++ collectFrom pick (front ++ [item]) rest

def collect (pick : List A → A → List B) (items : List A) : List B := collectFrom pick [] items

/-- An item with all that stands before it. -/
def At (items front : List A) (item : A) : Prop := front ++ [item] <+: items

theorem at_iff {items front : List A} {item : A} :
    At items front item ↔ ∃ index < items.length, items[index]? = some item ∧ items.take index = front := by
  constructor
  · intro inside
    obtain ⟨rest, same⟩ := inside
    refine ⟨front.length, ?_, ?_, ?_⟩
    · rw [← same, List.length_append, List.length_append, List.length_singleton]
      omega
    · rw [← same, List.append_assoc, List.getElem?_append_right (Nat.le_refl _), Nat.sub_self]
      rfl
    · rw [← same, List.append_assoc, List.take_left]
  · intro found
    obtain ⟨index, _, here, taken⟩ := found
    refine ⟨items.drop (index + 1), ?_⟩
    obtain ⟨inside, same⟩ := List.getElem?_eq_some_iff.mp here
    rw [← taken, List.append_assoc, List.singleton_append, ← same, List.cons_getElem_drop_succ, List.take_append_drop]

/-- What is asked of every place of a sequence can be tested. -/
instance (items : List A) (holds : List A → A → Prop) [∀ front item, Decidable (holds front item)] :
    Decidable (∀ front item, At items front item → holds front item) :=
  decidable_of_iff (∀ index < items.length, ∀ item ∈ items[index]?, holds (items.take index) item) (by
    constructor
    · intro all front item inside
      obtain ⟨index, below, here, taken⟩ := at_iff.mp inside
      exact taken ▸ all index below item here
    · intro all index below item here
      exact all _ item (at_iff.mpr ⟨index, below, here, rfl⟩))

theorem collectFrom_snoc (pick : List A → A → List B) (front items : List A) (item : A) :
    collectFrom pick front (items ++ [item]) = collectFrom pick front items ++ pick (front ++ items) item := by
  induction items generalizing front with
  | nil => rw [List.nil_append, collectFrom, collectFrom, collectFrom, List.append_nil, List.append_nil, List.nil_append]
  | cons first items ih =>
    rw [List.cons_append, collectFrom, ih, collectFrom, List.append_assoc, List.append_assoc, List.singleton_append]

theorem collect_snoc (pick : List A → A → List B) (front : List A) (item : A) :
    collect pick (front ++ [item]) = collect pick front ++ pick front item :=
  collectFrom_snoc pick [] front item

/-- A property of all fronts of a sequence is kept by every item. -/
theorem fronts_iff {items : List A} {holds : List A → Prop} (start : holds []) :
    (∀ front, front <+: items → holds front) ↔
      ∀ front item, At items front item → holds front → holds (front ++ [item]) := by
  constructor
  · intro all front item inside _
    exact all _ inside
  · intro kept front
    induction front using List.reverseRecOn with
    | nil => exact fun _ => start
    | append_singleton front item ih =>
      intro inside
      exact kept front item inside (ih ((List.prefix_append front [item]).trans inside))

/-- A reader that adds what it picks to what it has has collected what another picks,
after every item, exactly when they pick the same. -/
theorem collected_iff {items : List A} {read : List A → List B} {added pick : List A → A → List B}
    (steps : ∀ front item, At items front item → read (front ++ [item]) = read front ++ added front item) :
    (∀ front, front <+: items → read front = read [] ++ collect pick front) ↔
      ∀ front item, At items front item → added front item = pick front item := by
  constructor
  · intro collected front item inside
    have before := collected front ((List.prefix_append front [item]).trans inside)
    have after := collected (front ++ [item]) inside
    rw [steps front item inside, collect_snoc, before, List.append_assoc, List.append_cancel_left_eq,
      List.append_cancel_left_eq] at after
    exact after
  · intro same
    have start : read [] = read [] ++ collect pick [] := (List.append_nil _).symm
    refine (@fronts_iff A items (fun front => read front = read [] ++ collect pick front) start).mpr ?_
    intro front item inside held
    rw [steps front item inside, held, same front item inside, collect_snoc, List.append_assoc]

end SblPayload.Library
