import SblPayload.Library.FileTree

/-! Python's `shutil.rmtree` with `ignore_errors`: a directory goes with everything in
it, and what is no directory stays. -/

namespace SblPayload.Library.FileTree

variable {Name Content : Type} [DecidableEq Name]

theorem lookup_filter (keeps : List Name → Bool) (nodes : List (List Name × Node Content)) (path : List Name) :
    (nodes.filter fun entry => keeps entry.1).lookup path = if keeps path then nodes.lookup path else none := by
  induction nodes with
  | nil => rw [List.filter_nil, List.lookup_nil, ite_self]
  | cons entry nodes ih =>
    obtain ⟨key, new⟩ := entry
    by_cases here : path = key
    · subst here
      cases kept : keeps path with
      | true => simp [kept]
      | false => simp [kept, ih]
    · have other : (path == key) = false := beq_eq_false_iff_ne.mpr here
      cases kept : keeps key with
      | true => simp [kept, List.lookup_cons, other, ih]
      | false => simp [kept, List.lookup_cons, other, ih]

/-- What is neither at the path nor below it. -/
def without (tree : FileTree Name Content) (path : List Name) : FileTree Name Content where
  nodes := tree.nodes.filter fun entry => ! path.isPrefixOf entry.1
  closed folder name there := by
    rw [lookup_filter fun key => ! path.isPrefixOf key] at there ⊢
    by_cases below : (! path.isPrefixOf (folder ++ [name])) = true
    · rw [if_pos below] at there
      have kept : (! path.isPrefixOf folder) = true := by
        rw [Bool.not_eq_true', ← Bool.not_eq_true, List.isPrefixOf_iff_prefix] at below ⊢
        exact fun front => below (front.trans (List.prefix_append _ _))
      rw [if_pos kept]
      exact tree.closed folder name there
    · rw [if_neg below] at there
      cases there

def rmtree (tree : FileTree Name Content) (path : List Name) : FileTree Name Content :=
  if tree.IsDir path then tree.without path else tree

section Removal
variable {tree : FileTree Name Content} {path other : List Name}

theorem node_without : (tree.without path).node other = if path <+: other then none else tree.node other := by
  rw [node, without, lookup_filter fun key => ! path.isPrefixOf key]
  by_cases below : path <+: other
  · rw [if_pos below, if_neg]
    rw [List.isPrefixOf_iff_prefix.mpr below]
    exact Bool.false_ne_true
  · rw [if_neg below, if_pos]
    · rfl
    · rw [Bool.not_eq_true', ← Bool.not_eq_true, List.isPrefixOf_iff_prefix]
      exact below

theorem rmtree_outside (outside : ¬ path <+: other) : (tree.rmtree path).node other = tree.node other := by
  unfold rmtree
  split
  · rw [node_without, if_neg outside]
  · rfl

/-- Nothing is below what is no directory. -/
theorem none_below (free : ¬ tree.IsDir path) {rest : List Name} (some : rest ≠ []) : tree.node (path ++ rest) = none := by
  by_contra there
  exact free (front_dir (Option.isSome_iff_ne_none.mpr there) some)

theorem rmtree_below {rest : List Name} (some : rest ≠ []) : (tree.rmtree path).node (path ++ rest) = none := by
  unfold rmtree
  split
  · rw [node_without, if_pos (List.prefix_append _ _)]
  next free => exact none_below free some

theorem rmtree_gone (free : ¬ tree.IsFile path) (inside : path <+: other) : (tree.rmtree path).node other = none := by
  obtain ⟨rest, rfl⟩ := inside
  by_cases some : rest = []
  · subst some
    rw [List.append_nil]
    unfold rmtree
    split
    · rw [node_without, if_pos List.prefix_rfl]
    next there =>
      cases found : tree.node path with
      | none => rfl
      | some new =>
        cases new with
        | file content => exact absurd ⟨content, found⟩ free
        | dir => exact absurd found there
  · exact rmtree_below some

theorem rmtree_not_dir : ¬ (tree.rmtree path).IsDir path := by
  unfold rmtree
  split
  · intro dir
    rw [IsDir, node_without, if_pos List.prefix_rfl] at dir
    cases dir
  next free => exact free

end Removal

end SblPayload.Library.FileTree
