import Mathlib.Data.List.Dedup
import Mathlib.Data.List.Induction
import Mathlib.Data.List.MinMax
import Mathlib.Order.Nat

/-! Finite trees of files and directories, without links. What stands at a path
stands in a directory. -/

namespace SblPayload.Library

inductive Node (Content : Type) where
  | file (content : Content)
  | dir
deriving DecidableEq

structure FileTree (Name Content : Type) [DecidableEq Name] where
  nodes : List (List Name × Node Content)
  closed : ∀ folder name, (nodes.lookup (folder ++ [name])).isSome → nodes.lookup folder = some .dir

namespace FileTree

variable {Name Content : Type} [DecidableEq Name] (tree : FileTree Name Content)

def node (path : List Name) : Option (Node Content) := tree.nodes.lookup path

def IsDir (path : List Name) : Prop := tree.node path = some .dir

def IsFile (path : List Name) : Prop := ∃ content, tree.node path = some (.file content)

instance (path : List Name) : Decidable (tree.IsDir path) :=
  match found : tree.node path with
  | some .dir => .isTrue found
  | some (.file _) => .isFalse fun same => by rw [IsDir, found] at same; cases same
  | none => .isFalse fun same => by rw [IsDir, found] at same; cases same

variable {tree}

theorem not_dir_of_file {path : List Name} (file : tree.IsFile path) : ¬ tree.IsDir path := by
  intro dir
  obtain ⟨content, same⟩ := file
  rw [dir] at same
  cases same

theorem parent_dir {folder : List Name} {name : Name} (there : (tree.node (folder ++ [name])).isSome) : tree.IsDir folder :=
  tree.closed folder name there

/-- Every proper front of a path that leads somewhere is a directory. -/
theorem front_dir {folder rest : List Name} (there : (tree.node (folder ++ rest)).isSome) (some : rest ≠ []) :
    tree.IsDir folder := by
  induction rest using List.reverseRecOn with
  | nil => exact absurd rfl some
  | append_singleton rest name ih =>
    rw [← List.append_assoc] at there
    have parent := parent_dir there
    cases rest with
    | nil =>
      rw [List.append_nil] at parent
      exact parent
    | cons first rest =>
      apply ih _ (List.cons_ne_nil _ _)
      rw [parent]
      rfl

theorem prefix_dir {folder path : List Name} (front : folder <+: path) (dir : tree.IsDir path) : tree.IsDir folder := by
  obtain ⟨rest, rfl⟩ := front
  cases rest with
  | nil =>
    rw [List.append_nil] at dir
    exact dir
  | cons first rest =>
    apply front_dir _ (List.cons_ne_nil first rest)
    rw [dir]
    rfl

theorem mem_nodes {path : List Name} {new : Node Content} (there : tree.node path = some new) :
    (path, new) ∈ tree.nodes := by
  obtain ⟨before, after, split, _⟩ := List.lookup_eq_some_iff.mp there
  rw [split]
  exact List.mem_append_right before List.mem_cons_self

variable (tree)

/-- The tree is finite, so no path in it is longer than some number of names. -/
theorem bounded : ∃ bound, ∀ path, tree.IsDir path → path.length ≤ bound := by
  refine ⟨(tree.nodes.map fun entry => entry.1.length).foldr max ⊥, ?_⟩
  intro path dir
  have member : path.length ∈ tree.nodes.map fun entry => entry.1.length := List.mem_map.mpr ⟨_, mem_nodes dir, rfl⟩
  exact List.le_max_of_le member le_rfl

/-- Whether every path stands in a directory can be looked up. -/
def ofNodes (nodes : List (List Name × Node Content))
    (parents : ∀ entry ∈ nodes, entry.1 ≠ [] → nodes.lookup entry.1.dropLast = some .dir) : FileTree Name Content where
  nodes
  closed folder name there := by
    obtain ⟨entry, member, same⟩ := List.lookup_isSome_iff.mp there
    have path : entry.1 = folder ++ [name] := (beq_iff_eq.mp same).symm
    have parent := parents entry member (by rw [path]; exact List.append_ne_nil_of_right_ne_nil _ (List.cons_ne_nil _ _))
    rw [path, List.dropLast_concat] at parent
    exact parent

/-- Something new in a directory, or another file in the place of one. A directory
is never replaced. -/
def put (folder : List Name) (name : Name) (new : Node Content) : FileTree Name Content :=
  if allowed : tree.IsDir folder ∧ ¬ tree.IsDir (folder ++ [name]) then
    ⟨(folder ++ [name], new) :: tree.nodes, by
      intro other last there
      have kept : tree.IsDir other := by
        rw [List.lookup_cons] at there
        cases same : other ++ [last] == folder ++ [name] with
        | true =>
          rw [(List.append_inj' (beq_iff_eq.mp same) rfl).1]
          exact allowed.1
        | false =>
          rw [same] at there
          exact parent_dir there
      have different : (other == folder ++ [name]) = false := by
        apply beq_eq_false_iff_ne.mpr
        intro same
        exact allowed.2 (same ▸ kept)
      rw [List.lookup_cons, different]
      exact kept⟩
  else tree

variable {tree}

theorem node_put {folder : List Name} {name : Name} {new : Node Content} (inside : tree.IsDir folder)
    (free : ¬ tree.IsDir (folder ++ [name])) (path : List Name) :
    (tree.put folder name new).node path = if path = folder ++ [name] then some new else tree.node path := by
  rw [put, dif_pos ⟨inside, free⟩, node, List.lookup_cons]
  by_cases same : path = folder ++ [name]
  · rw [if_pos same, beq_iff_eq.mpr same]
  · rw [if_neg same, beq_eq_false_iff_ne.mpr same]
    rfl

variable (tree)

/-- `os.makedirs(path, exist_ok=True)`, with the last component first. -/
def makedirsTo : List Name → Option (FileTree Name Content)
  | [] => some tree
  | name :: front => do
    let made ← makedirsTo front
    match made.node (front.reverse ++ [name]) with
    | some .dir => return made
    | some (.file _) => none
    | none => return made.put front.reverse name .dir

def makedirs (path : List Name) : Option (FileTree Name Content) := tree.makedirsTo path.reverse

/-- The names in a directory. -/
def children (folder : List Name) : List Name :=
  (tree.nodes.filterMap fun entry => if entry.1.dropLast = folder then entry.1.getLast? else none).dedup

variable {tree}

theorem makedirs_child_eq (folder : List Name) (name : Name) :
    tree.makedirs (folder ++ [name]) = (tree.makedirs folder).bind fun made =>
      match made.node (folder ++ [name]) with
      | some .dir => some made
      | some (.file _) => none
      | none => some (made.put folder name .dir) := by
  rw [makedirs, List.reverse_append, List.reverse_singleton, List.singleton_append, makedirsTo, List.reverse_reverse]
  rfl

theorem makedirs_dir {path : List Name} (there : tree.IsDir path) : tree.makedirs path = some tree := by
  induction path using List.reverseRecOn with
  | nil => rfl
  | append_singleton folder name ih =>
    have parent : tree.IsDir folder := parent_dir (by rw [there]; rfl)
    rw [makedirs_child_eq, ih parent, Option.bind_some, there]

theorem makedirs_file {folder : List Name} {name : Name} (file : tree.IsFile (folder ++ [name])) :
    tree.makedirs (folder ++ [name]) = none := by
  obtain ⟨content, there⟩ := file
  have parent : tree.IsDir folder := parent_dir (by rw [there]; rfl)
  rw [makedirs_child_eq, makedirs_dir parent, Option.bind_some, there]

theorem makedirs_new {folder : List Name} {name : Name} (parent : tree.IsDir folder)
    (free : tree.node (folder ++ [name]) = none) : tree.makedirs (folder ++ [name]) = some (tree.put folder name .dir) := by
  rw [makedirs_child_eq, makedirs_dir parent, Option.bind_some, free]

theorem mem_children {folder : List Name} {name : Name} :
    name ∈ tree.children folder ↔ (tree.node (folder ++ [name])).isSome := by
  rw [children, List.mem_dedup, List.mem_filterMap, node, List.lookup_isSome_iff]
  constructor
  · intro listed
    obtain ⟨entry, member, found⟩ := listed
    split at found
    next front =>
      refine ⟨entry, member, beq_iff_eq.mpr ?_⟩
      rw [← front, List.dropLast_append_getLast? _ found]
    next => cases found
  · intro listed
    obtain ⟨entry, member, same⟩ := listed
    refine ⟨entry, member, ?_⟩
    rw [← beq_iff_eq.mp same, List.dropLast_concat, if_pos rfl, List.getLast?_concat]

end FileTree

end SblPayload.Library
