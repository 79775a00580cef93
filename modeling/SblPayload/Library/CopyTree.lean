import SblPayload.Library.FileTree

/-! Python's `shutil.copytree` with `dirs_exist_ok`, into a tree that may be part of
the one being copied. The depth of the recursion is bounded by a number, none when
it is not enough. -/

namespace SblPayload.Library

variable {Name Content : Type} [DecidableEq Name]

/-- The order in which the system lists a directory. -/
structure Listing (Name Content : Type) [DecidableEq Name] where
  order : FileTree Name Content → List Name → List Name → List Name
  perm : ∀ tree folder names, (order tree folder names).Perm names

/-- What is left by a copy, and whether it ends with an exception. -/
structure Copied (Name Content : Type) [DecidableEq Name] where
  tree : FileTree Name Content
  raised : Bool

namespace CopyTree
open FileTree

/-- `list(os.scandir(folder))`: every entry, with its kind. -/
def entries (listing : Listing Name Content) (tree : FileTree Name Content) (folder : List Name) : List (Name × Bool) :=
  (listing.order tree folder (tree.children folder)).map fun name => (name, decide (tree.IsDir (folder ++ [name])))

/-- `shutil.copy2` of a file of the folder `src` to its place in the folder `dst`:
into the directory that stands there, if one does. -/
def copy2 (copied : Copied Name Content) (src dst : List Name) (name : Name) : Copied Name Content :=
  let folder := if copied.tree.IsDir (dst ++ [name]) then dst ++ [name] else dst
  match copied.tree.node (src ++ [name]) with
  | some (.file content) =>
    -- the same file, no folder to write to, a directory in the place of the file
    if folder = src ∨ ¬ copied.tree.IsDir folder ∨ copied.tree.IsDir (folder ++ [name]) then ⟨copied.tree, true⟩
    else ⟨copied.tree.put folder name (.file content), copied.raised⟩
  | _ => ⟨copied.tree, true⟩

/-- One turn of the loop over the entries. Exceptions are collected. -/
def copyEntry (copytree : FileTree Name Content → List Name → List Name → Option (Copied Name Content))
    (ignored : Name → Bool) (src dst : List Name) (copied : Copied Name Content) (entry : Name × Bool) :
    Option (Copied Name Content) :=
  if ignored entry.1 then some copied
  else if entry.2 then
    (copytree copied.tree (src ++ [entry.1]) (dst ++ [entry.1])).map fun inner =>
      ⟨inner.tree, copied.raised || inner.raised⟩
  else some (copy2 copied src dst entry.1)

def copytree (listing : Listing Name Content) (ignored : Name → Bool) :
    Nat → FileTree Name Content → List Name → List Name → Option (Copied Name Content)
  | 0, _, _, _ => none
  | depth + 1, tree, src, dst =>
    let listed := entries listing tree src
    match tree.makedirs dst with
    | none => some ⟨tree, true⟩
    | some made => listed.foldlM (copyEntry (copytree listing ignored depth) ignored src dst) ⟨made, false⟩

section Loop
variable {A B : Type} {step : B → A → Option B} {items : List A}

theorem loop_keeps {holds : B → Prop}
    (kept : ∀ item ∈ items, ∀ before after, holds before → step before item = some after → holds after)
    {start final : B} (held : holds start) (ended : items.foldlM step start = some final) : holds final := by
  induction items generalizing start with
  | nil => exact Option.some.inj ended ▸ held
  | cons item items ih =>
    rw [List.foldlM_cons] at ended
    obtain ⟨middle, stepped, ended⟩ := Option.bind_eq_some_iff.mp ended
    have keptRest := fun other member => kept other (List.mem_cons_of_mem item member)
    exact ih keptRest (kept item List.mem_cons_self start middle held stepped) ended

theorem loop_ends {holds : B → Prop}
    (ends : ∀ item ∈ items, ∀ before, holds before → ∃ after, step before item = some after ∧ holds after)
    {start : B} (held : holds start) : ∃ final, items.foldlM step start = some final := by
  induction items generalizing start with
  | nil => exact ⟨start, rfl⟩
  | cons item items ih =>
    obtain ⟨middle, stepped, held⟩ := ends item List.mem_cons_self start held
    obtain ⟨final, ended⟩ := ih (fun other member => ends other (List.mem_cons_of_mem item member)) held
    refine ⟨final, ?_⟩
    rw [List.foldlM_cons, stepped]
    exact ended

/-- A loop with a turn that has no result has none, whatever the turns before it do. -/
theorem loop_stuck {holds : B → Prop}
    (kept : ∀ item ∈ items, ∀ before after, holds before → step before item = some after → holds after)
    {item : A} (member : item ∈ items) (stuck : ∀ before, holds before → step before item = none) {start : B}
    (held : holds start) : items.foldlM step start = none := by
  induction items generalizing start with
  | nil => cases member
  | cons first items ih =>
    rw [List.foldlM_cons]
    cases stepped : step start first with
    | none => rfl
    | some middle =>
      cases List.mem_cons.mp member with
      | inl same =>
        rw [← same, stuck start held] at stepped
        cases stepped
      | inr later =>
        have keptRest := fun other member => kept other (List.mem_cons_of_mem first member)
        exact ih keptRest later (kept first List.mem_cons_self start middle held stepped)

/-- Turns that have a result where those of another loop have one give the same result. -/
theorem loop_follows {other : B → A → Option B} (follows : ∀ before item after, step before item = some after →
    other before item = some after) {start final : B} (ended : items.foldlM step start = some final) :
    items.foldlM other start = some final := by
  induction items generalizing start with
  | nil => exact ended
  | cons item items ih =>
    rw [List.foldlM_cons] at ended ⊢
    obtain ⟨middle, stepped, ended⟩ := Option.bind_eq_some_iff.mp ended
    rw [follows start item middle stepped]
    exact ih ended

/-- One turn does what the others leave as it is. -/
theorem loop_reaches {waiting done : B → Prop} {item : A} (member : item ∈ items) (distinct : items.Nodup)
    (waits : ∀ other ∈ items, other ≠ item → ∀ before after, waiting before → step before other = some after →
      waiting after)
    (acts : ∀ before after, waiting before → step before item = some after → done after)
    (stays : ∀ other ∈ items, other ≠ item → ∀ before after, done before → step before other = some after →
      done after)
    {start final : B} (held : waiting start) (ended : items.foldlM step start = some final) : done final := by
  induction items generalizing start with
  | nil => cases member
  | cons first items ih =>
    rw [List.foldlM_cons] at ended
    obtain ⟨middle, stepped, ended⟩ := Option.bind_eq_some_iff.mp ended
    obtain ⟨fresh, distinct⟩ := List.nodup_cons.mp distinct
    by_cases same : first = item
    · rw [same] at stepped fresh
      have others : ∀ other ∈ items, ∀ before after, done before → step before other = some after → done after := by
        intro other inside
        have different : other ≠ item := fun equal => fresh (equal ▸ inside)
        exact stays other (List.mem_cons_of_mem first inside) different
      exact loop_keeps others (acts start middle held stepped) ended
    · have later : item ∈ items := (List.mem_cons.mp member).resolve_left fun equal => same equal.symm
      exact ih later distinct (fun other inside => waits other (List.mem_cons_of_mem first inside))
        (fun other inside => stays other (List.mem_cons_of_mem first inside))
        (waits first List.mem_cons_self same start middle held stepped) ended

/-- A loop with one turn that needs what it may undo itself. -/
theorem loop_ends_once {early late : B → Prop} {item : A} (distinct : items.Nodup)
    (waits : ∀ other ∈ items, other ≠ item → ∀ before, early before →
      ∃ after, step before other = some after ∧ early after)
    (acts : item ∈ items → ∀ before, early before → ∃ after, step before item = some after ∧ late after)
    (stays : ∀ other ∈ items, other ≠ item → ∀ before, late before →
      ∃ after, step before other = some after ∧ late after)
    {start : B} (held : early start) : ∃ final, items.foldlM step start = some final := by
  induction items generalizing start with
  | nil => exact ⟨start, rfl⟩
  | cons first items ih =>
    obtain ⟨fresh, distinct⟩ := List.nodup_cons.mp distinct
    by_cases same : first = item
    · obtain ⟨middle, stepped, held⟩ := acts (same ▸ List.mem_cons_self) start held
      have others : ∀ other ∈ items, ∀ before, late before → ∃ after, step before other = some after ∧ late after := by
        intro other inside
        have different : other ≠ item := fun equal => fresh (same ▸ equal ▸ inside)
        exact stays other (List.mem_cons_of_mem first inside) different
      obtain ⟨final, ended⟩ := loop_ends others held
      refine ⟨final, ?_⟩
      rw [List.foldlM_cons, same, stepped]
      exact ended
    · obtain ⟨middle, stepped, held⟩ := waits first List.mem_cons_self same start held
      obtain ⟨final, ended⟩ := ih distinct (fun other inside => waits other (List.mem_cons_of_mem first inside))
        (fun inside => acts (List.mem_cons_of_mem first inside))
        (fun other inside => stays other (List.mem_cons_of_mem first inside)) held
      refine ⟨final, ?_⟩
      rw [List.foldlM_cons, stepped]
      exact ended

end Loop

section Entries
variable {listing : Listing Name Content} {tree : FileTree Name Content} {folder : List Name}

theorem mem_entries {entry : Name × Bool} :
    entry ∈ entries listing tree folder ↔
      (tree.node (folder ++ [entry.1])).isSome ∧ entry.2 = decide (tree.IsDir (folder ++ [entry.1])) := by
  have listed : ∀ name, name ∈ listing.order tree folder (tree.children folder) ↔
      (tree.node (folder ++ [name])).isSome := fun name => (listing.perm tree folder _).mem_iff.trans mem_children
  rw [entries, List.mem_map]
  constructor
  · intro found
    obtain ⟨name, member, same⟩ := found
    rw [← same]
    exact ⟨(listed name).mp member, rfl⟩
  · intro both
    exact ⟨entry.1, (listed entry.1).mpr both.1, by rw [← both.2]⟩

/-- A name is listed with one kind. -/
theorem entries_distinct {name : Name} {other : Name × Bool} (member : other ∈ entries listing tree folder)
    (different : other ≠ (name, decide (tree.IsDir (folder ++ [name])))) : name ≠ other.1 := by
  intro same
  apply different
  rw [Prod.ext_iff]
  refine ⟨same.symm, ?_⟩
  rw [(mem_entries.mp member).2, same]

theorem entries_nodup : (entries listing tree folder).Nodup := by
  have names : (listing.order tree folder (tree.children folder)).Nodup :=
    (listing.perm tree folder _).nodup_iff.mpr (List.nodup_dedup _)
  exact names.map fun first second same => (Prod.mk.inj same).1

end Entries

section Growth
variable {src dst : List Name} {tree : FileTree Name Content}

/-- The folder a directory is made in is there. -/
def Ready (tree : FileTree Name Content) (dst : List Name) : Prop :=
  ∃ folder name, dst = folder ++ [name] ∧ tree.IsDir folder

/-- What a copy from `src` to `dst` may do: nothing outside `dst`, no change of a
kind, and no directory that is not the image of one. -/
structure Grows (src dst : List Name) (before after : FileTree Name Content) : Prop where
  outside : ∀ path, ¬ dst <+: path → after.node path = before.node path
  dirs : ∀ path, before.IsDir path → after.IsDir path
  files : ∀ path, before.IsFile path → after.IsFile path
  images : ∀ fair : List Name → Prop, (∀ rest, fair (src ++ rest) → fair (dst ++ rest)) →
    (∀ path, before.IsDir path → fair path) → ∀ path, after.IsDir path → fair path

theorem Grows.refl (src dst : List Name) (tree : FileTree Name Content) : Grows src dst tree tree :=
  ⟨fun _ _ => rfl, fun _ held => held, fun _ held => held, fun _ _ held => held⟩

theorem Grows.trans {first second third : FileTree Name Content} (early : Grows src dst first second)
    (late : Grows src dst second third) : Grows src dst first third where
  outside path apart := (late.outside path apart).trans (early.outside path apart)
  dirs path held := late.dirs path (early.dirs path held)
  files path held := late.files path (early.files path held)
  images fair moved held := late.images fair moved (early.images fair moved held)

/-- A copy within the copy of a folder is part of it. -/
theorem Grows.widen {name : Name} {before after : FileTree Name Content}
    (inner : Grows (src ++ [name]) (dst ++ [name]) before after) : Grows src dst before after where
  outside path apart := inner.outside path fun inside => apart ((List.prefix_append dst [name]).trans inside)
  dirs := inner.dirs
  files := inner.files
  images fair moved := inner.images fair fun rest held => by
    rw [List.append_assoc] at held ⊢
    exact moved _ held

theorem put_file_grows {folder : List Name} {name : Name} {content : Content} (there : tree.IsDir folder)
    (free : ¬ tree.IsDir (folder ++ [name])) (inside : dst <+: folder ++ [name]) :
    Grows src dst tree (tree.put folder name (.file content)) where
  outside path apart := by
    have other : path ≠ folder ++ [name] := fun same => apart (same ▸ inside)
    rw [node_put there free, if_neg other]
  dirs path held := by
    have other : path ≠ folder ++ [name] := fun same => free (same ▸ held)
    rw [IsDir, node_put there free, if_neg other]
    exact held
  files path held := by
    rw [IsFile, node_put there free]
    split
    · exact ⟨content, rfl⟩
    · exact held
  images fair _ held path dir := by
    rw [IsDir, node_put there free] at dir
    split at dir
    · cases dir
    · exact held path dir

/-- A directory that no file stands in the way of is made, and nothing else. -/
theorem makedirs_ready (ready : Ready tree dst) (free : ¬ tree.IsFile dst) :
    ∃ made, tree.makedirs dst = some made ∧ made.IsDir dst ∧ ∀ path, path ≠ dst → made.node path = tree.node path := by
  obtain ⟨folder, name, rfl, there⟩ := ready
  cases found : tree.node (folder ++ [name]) with
  | none =>
    have notDir : ¬ tree.IsDir (folder ++ [name]) := by
      intro dir
      rw [dir] at found
      cases found
    refine ⟨_, makedirs_new there found, ?_, ?_⟩
    · rw [IsDir, node_put there notDir, if_pos rfl]
    · intro path other
      rw [node_put there notDir, if_neg other]
  | some new =>
    cases new with
    | dir => exact ⟨tree, makedirs_dir found, found, fun _ _ => rfl⟩
    | file content => exact absurd ⟨content, found⟩ free

theorem makedirs_blocked (ready : Ready tree dst) (file : tree.IsFile dst) : tree.makedirs dst = none := by
  obtain ⟨folder, name, rfl, _⟩ := ready
  exact makedirs_file file

theorem makedirs_grows (source : tree.IsDir src) (ready : Ready tree dst) {made : FileTree Name Content}
    (ended : tree.makedirs dst = some made) :
    Grows src dst tree made ∧ made.IsDir dst ∧ ¬ tree.IsFile dst ∧
      ∀ path, path ≠ dst → made.node path = tree.node path := by
  have free : ¬ tree.IsFile dst := by
    intro file
    rw [makedirs_blocked ready file] at ended
    cases ended
  obtain ⟨other, again, there, same⟩ := makedirs_ready ready free
  rw [ended] at again
  cases again
  refine ⟨⟨?_, ?_, ?_, ?_⟩, there, free, same⟩
  · intro path apart
    exact same path fun equal => apart (equal ▸ List.prefix_rfl)
  · intro path dir
    by_cases equal : path = dst
    · exact equal ▸ there
    · exact (same path equal).trans dir
  · intro path file
    have other : path ≠ dst := fun equal => free (equal ▸ file)
    rw [IsFile, same path other]
    exact file
  · intro fair moved held path dir
    by_cases equal : path = dst
    · have start := moved [] ((List.append_nil src).symm ▸ held src source)
      rw [List.append_nil] at start
      exact equal ▸ start
    · exact held path ((same path equal).symm.trans dir)

theorem copy2_tree (copied : Copied Name Content) (src dst : List Name) (name : Name) :
    (copy2 copied src dst name).tree = copied.tree ∨
      ∃ folder content, (folder = dst ∨ folder = dst ++ [name]) ∧ copied.tree.IsDir folder ∧
        ¬ copied.tree.IsDir (folder ++ [name]) ∧
        (copy2 copied src dst name).tree = copied.tree.put folder name (.file content) := by
  have place : ∀ folder, (if copied.tree.IsDir (dst ++ [name]) then dst ++ [name] else dst) = folder →
      folder = dst ∨ folder = dst ++ [name] := by
    intro folder chosen
    split at chosen
    · exact Or.inr chosen.symm
    · exact Or.inl chosen.symm
  unfold copy2
  generalize chosen : (if copied.tree.IsDir (dst ++ [name]) then dst ++ [name] else dst) = folder
  dsimp only
  split
  next content _ =>
    split
    next => exact Or.inl rfl
    next allowed =>
      obtain ⟨_, allowed⟩ := not_or.mp allowed
      obtain ⟨there, free⟩ := not_or.mp allowed
      exact Or.inr ⟨folder, content, place folder chosen, not_not.mp there, free, rfl⟩
  next => exact Or.inl rfl

theorem copy2_grows (copied : Copied Name Content) (src dst : List Name) (name : Name) :
    Grows (src ++ [name]) (dst ++ [name]) copied.tree (copy2 copied src dst name).tree := by
  rcases copy2_tree copied src dst name with same | ⟨folder, content, place, there, free, same⟩
  · rw [same]
    exact Grows.refl _ _ _
  · rw [same]
    apply put_file_grows there free
    cases place with
    | inl here => exact here ▸ List.prefix_rfl
    | inr inner => exact inner ▸ List.prefix_append _ _

/-- Copying a file makes no directory. -/
theorem copy2_dirs {copied : Copied Name Content} {name : Name} {path : List Name}
    (dir : (copy2 copied src dst name).tree.IsDir path) : copied.tree.IsDir path := by
  rcases copy2_tree copied src dst name with same | ⟨folder, content, _, there, free, same⟩
  · exact same ▸ dir
  · rw [same, IsDir, node_put there free] at dir
    split at dir
    · cases dir
    · exact dir

variable {listing : Listing Name Content} {ignored : Name → Bool} {depth : Nat}

theorem copytree_blocked (blocked : tree.makedirs dst = none) :
    copytree listing ignored (depth + 1) tree src dst = some ⟨tree, true⟩ := by
  rw [copytree, blocked]

theorem copytree_made {made : FileTree Name Content} (ended : tree.makedirs dst = some made) :
    copytree listing ignored (depth + 1) tree src dst =
      (entries listing tree src).foldlM (copyEntry (copytree listing ignored depth) ignored src dst) ⟨made, false⟩ := by
  rw [copytree, ended]

/-- A deeper recursion does not change a result. -/
theorem copytree_deeper {copied : Copied Name Content} {more : Nat} (deeper : depth ≤ more)
    (ended : copytree listing ignored depth tree src dst = some copied) :
    copytree listing ignored more tree src dst = some copied := by
  induction depth generalizing tree src dst copied more with
  | zero => cases ended
  | succ depth ih =>
    obtain ⟨more, rfl⟩ := Nat.exists_eq_add_one_of_ne_zero (Nat.ne_zero_of_lt deeper)
    have below : depth ≤ more := Nat.le_of_succ_le_succ deeper
    cases makes : tree.makedirs dst with
    | none =>
      rw [copytree_blocked makes] at ended ⊢
      exact ended
    | some made =>
      rw [copytree_made makes] at ended ⊢
      refine loop_follows ?_ ended
      intro before entry after stepped
      unfold copyEntry at stepped ⊢
      split at stepped
      next dropped =>
        rw [if_pos dropped]
        exact stepped
      next wanted =>
        rw [if_neg wanted]
        split at stepped
        next isDir =>
          obtain ⟨inner, ran, same⟩ := Option.map_eq_some_iff.mp stepped
          rw [if_pos isDir, ih below ran, Option.map_some, same]
        next file =>
          rw [if_neg file]
          exact stepped

theorem copyEntry_grows {before after : Copied Name Content} {entry : Name × Bool}
    (inner : ∀ copied, entry.2 = true →
      copytree listing ignored depth before.tree (src ++ [entry.1]) (dst ++ [entry.1]) = some copied →
      Grows (src ++ [entry.1]) (dst ++ [entry.1]) before.tree copied.tree)
    (stepped : copyEntry (copytree listing ignored depth) ignored src dst before entry = some after) :
    Grows (src ++ [entry.1]) (dst ++ [entry.1]) before.tree after.tree := by
  unfold copyEntry at stepped
  split at stepped
  · cases stepped
    exact Grows.refl _ _ _
  · split at stepped
    next isDir =>
      obtain ⟨copied, ended, same⟩ := Option.map_eq_some_iff.mp stepped
      rw [← same]
      exact inner copied isDir ended
    next =>
      cases stepped
      exact copy2_grows before src dst entry.1

/-- How far the loop over the entries of a folder has come. -/
structure Looping (src dst : List Name) (tree : FileTree Name Content) (before : Copied Name Content) : Prop where
  grows : Grows src dst tree before.tree
  ready : before.tree.IsDir dst

theorem Looping.next {before after : Copied Name Content} {name : Name} (held : Looping src dst tree before)
    (turn : Grows (src ++ [name]) (dst ++ [name]) before.tree after.tree) : Looping src dst tree after :=
  ⟨held.grows.trans turn.widen, turn.dirs dst held.ready⟩

/-- A directory among the entries is still there when its turn comes. -/
theorem Looping.entry_dir {before : Copied Name Content} {entry : Name × Bool} (held : Looping src dst tree before)
    (member : entry ∈ entries listing tree src) (isDir : entry.2 = true) :
    before.tree.IsDir (src ++ [entry.1]) ∧ Ready before.tree (dst ++ [entry.1]) := by
  have dir : tree.IsDir (src ++ [entry.1]) := of_decide_eq_true ((mem_entries.mp member).2.symm.trans isDir)
  exact ⟨held.grows.dirs _ dir, dst, entry.1, rfl, held.ready⟩

theorem copytree_grows {copied : Copied Name Content} (source : tree.IsDir src) (ready : Ready tree dst)
    (ended : copytree listing ignored depth tree src dst = some copied) : Grows src dst tree copied.tree := by
  induction depth generalizing tree src dst copied with
  | zero => cases ended
  | succ depth ih =>
    cases makes : tree.makedirs dst with
    | none =>
      rw [copytree_blocked makes] at ended
      cases ended
      exact Grows.refl _ _ _
    | some made =>
      obtain ⟨grown, there, _, _⟩ := makedirs_grows source ready makes
      rw [copytree_made makes] at ended
      have whole : Looping src dst tree copied := by
        refine loop_keeps ?_ ⟨grown, there⟩ ended
        intro entry member before after held stepped
        apply held.next
        apply copyEntry_grows _ stepped
        intro copied isDir inner
        obtain ⟨dir, ready⟩ := held.entry_dir member isDir
        exact ih dir ready inner
      exact whole.grows

theorem Looping.turn {before after : Copied Name Content} {entry : Name × Bool} (held : Looping src dst tree before)
    (member : entry ∈ entries listing tree src)
    (stepped : copyEntry (copytree listing ignored depth) ignored src dst before entry = some after) :
    Grows (src ++ [entry.1]) (dst ++ [entry.1]) before.tree after.tree := by
  apply copyEntry_grows _ stepped
  intro copied isDir inner
  obtain ⟨dir, ready⟩ := held.entry_dir member isDir
  exact copytree_grows dir ready inner

end Growth

section Delivery
variable {src dst rest : List Name} {content : Content} {tree before after : FileTree Name Content}

omit [DecidableEq Name] in
theorem prefix_distinct {front path : List Name} {first second : Name} (different : first ≠ second)
    (inside : front ++ [first] <+: path) : ¬ front ++ [second] <+: path := by
  intro other
  obtain ⟨rest, same⟩ := inside
  obtain ⟨last, again⟩ := other
  rw [← again, List.append_assoc, List.append_assoc] at same
  exact different (List.cons.inj (List.append_cancel_left same)).1

/-- A file is to be copied, and nothing stands in its way. -/
structure Awaits (src dst rest : List Name) (content : Content) (tree : FileTree Name Content) : Prop where
  file : tree.node (src ++ rest) = some (.file content)
  clear : ∀ front last, rest = front ++ last → last ≠ [] → ¬ tree.IsFile (dst ++ front)
  free : ¬ tree.IsDir (dst ++ rest)

theorem Awaits.keep (awaits : Awaits src dst rest content before) (there : after.IsDir dst) (some : rest ≠ [])
    (source : after.node (src ++ rest) = before.node (src ++ rest))
    (target : ∀ front, front <+: rest → front ≠ [] → after.node (dst ++ front) = before.node (dst ++ front)) :
    Awaits src dst rest content after where
  file := source.trans awaits.file
  clear front last split more := by
    cases front with
    | nil =>
      rw [List.append_nil]
      exact fun file => not_dir_of_file file there
    | cons name front =>
      rw [IsFile, target _ (split ▸ List.prefix_append _ _) (List.cons_ne_nil _ _)]
      exact awaits.clear _ last split more
  free := by
    rw [IsDir, target rest List.prefix_rfl some]
    exact awaits.free

/-- Making the destination is not in the way. -/
theorem Awaits.made (awaits : Awaits src dst rest content before) (below : rest ≠ []) (apart : ¬ dst <+: src ++ rest)
    (there : after.IsDir dst) (same : ∀ path, path ≠ dst → after.node path = before.node path) :
    Awaits src dst rest content after := by
  apply awaits.keep there below
  · exact same _ fun equal => apart (equal ▸ List.prefix_rfl)
  · intro front _ more
    exact same _ fun equal => more (List.append_right_eq_self.mp equal)

theorem Awaits.enter {name : Name} (awaits : Awaits src dst (name :: rest) content tree) :
    Awaits (src ++ [name]) (dst ++ [name]) rest content tree where
  file := by
    rw [List.append_assoc]
    exact awaits.file
  clear front last split more := by
    rw [List.append_assoc]
    exact awaits.clear (name :: front) last (congrArg (List.cons name) split) more
  free := by
    rw [List.append_assoc]
    exact awaits.free

/-- The copy of another entry is not in the way either. -/
theorem Awaits.other {name other : Name} (awaits : Awaits src dst (name :: rest) content before)
    (apart : ¬ dst <+: src ++ name :: rest) (there : after.IsDir dst) (different : name ≠ other)
    (outside : ∀ path, ¬ dst ++ [other] <+: path → after.node path = before.node path) :
    Awaits src dst (name :: rest) content after := by
  apply awaits.keep there (List.cons_ne_nil _ _)
  · exact outside _ fun inside => apart ((List.prefix_append dst [other]).trans inside)
  · intro front within _
    apply outside
    intro inside
    have whole : dst ++ [other] <+: dst ++ name :: rest := inside.trans ((List.prefix_append_right_inj dst).mpr within)
    have here : dst ++ [name] <+: dst ++ name :: rest :=
      (List.prefix_append_right_inj dst).mpr (List.prefix_append [name] rest)
    exact prefix_distinct different here whole

theorem copy2_delivers {before : Copied Name Content} {name : Name} (awaits : Awaits src dst [name] content before.tree)
    (apart : ¬ dst <+: src ++ [name]) (there : before.tree.IsDir dst) :
    (copy2 before src dst name).tree.node (dst ++ [name]) = some (.file content) := by
  have other : dst ≠ src := fun same => apart (same ▸ List.prefix_append _ _)
  have allowed : ¬ (dst = src ∨ ¬ before.tree.IsDir dst ∨ before.tree.IsDir (dst ++ [name])) := by
    rintro (same | missing | taken)
    · exact other same
    · exact missing there
    · exact awaits.free taken
  unfold copy2
  rw [if_neg awaits.free, awaits.file]
  dsimp only
  rw [if_neg allowed, node_put there awaits.free, if_pos rfl]

variable {listing : Listing Name Content} {ignored : Name → Bool} {depth : Nat}

theorem Awaits.head_there {name : Name} (awaits : Awaits src dst (name :: rest) content tree) :
    (tree.node (src ++ [name])).isSome ∧ (rest ≠ [] → tree.IsDir (src ++ [name])) := by
  have whole : (tree.node (src ++ [name] ++ rest)).isSome := by
    rw [List.append_assoc, List.singleton_append, awaits.file]
    rfl
  have dir : rest ≠ [] → tree.IsDir (src ++ [name]) := front_dir whole
  refine ⟨?_, dir⟩
  cases rest with
  | nil =>
    rw [List.append_nil] at whole
    exact whole
  | cons next rest =>
    rw [dir (List.cons_ne_nil _ _)]
    rfl

/-- The turn of the entry the file is under. -/
theorem copyEntry_delivers {name : Name} {before after : Copied Name Content} (held : Looping src dst tree before)
    (member : (name, decide (tree.IsDir (src ++ [name]))) ∈ entries listing tree src) (wanted : ignored name = false)
    (awaits : Awaits src dst (name :: rest) content before.tree) (apart : ¬ dst <+: src ++ name :: rest)
    (inner : rest ≠ [] → ∀ copied, before.tree.IsDir (src ++ [name]) → Ready before.tree (dst ++ [name]) →
      copytree listing ignored depth before.tree (src ++ [name]) (dst ++ [name]) = some copied →
      copied.tree.node (dst ++ [name] ++ rest) = some (.file content))
    (kind : rest ≠ [] → tree.IsDir (src ++ [name]))
    (stepped : copyEntry (copytree listing ignored depth) ignored src dst before
      (name, decide (tree.IsDir (src ++ [name]))) = some after) :
    after.tree.node (dst ++ name :: rest) = some (.file content) := by
  unfold copyEntry at stepped
  rw [if_neg (ne_true_of_eq_false wanted)] at stepped
  by_cases isDir : decide (tree.IsDir (src ++ [name])) = true
  · rw [if_pos isDir] at stepped
    obtain ⟨copied, ended, same⟩ := Option.map_eq_some_iff.mp stepped
    obtain ⟨dir, ready⟩ := held.entry_dir member isDir
    have deeper : rest ≠ [] := by
      intro empty
      have file : before.tree.IsFile (src ++ [name]) := ⟨content, empty ▸ awaits.file⟩
      exact not_dir_of_file file dir
    have delivered := inner deeper copied dir ready ended
    rw [List.append_assoc] at delivered
    exact same ▸ delivered
  · rw [if_neg isDir] at stepped
    cases stepped
    have last : rest = [] := by
      by_contra deeper
      exact isDir (decide_eq_true (kind deeper))
    subst last
    exact copy2_delivers awaits apart held.ready

/-- Entries of different names do not meet, and each name is listed once. -/
theorem copytree_delivers {copied : Copied Name Content} (source : tree.IsDir src) (ready : Ready tree dst)
    (below : rest ≠ []) (wanted : ∀ name ∈ rest, ignored name = false) (apart : ¬ dst <+: src ++ rest)
    (awaits : Awaits src dst rest content tree) (ended : copytree listing ignored depth tree src dst = some copied) :
    copied.tree.node (dst ++ rest) = some (.file content) := by
  induction depth generalizing tree src dst rest copied with
  | zero => cases ended
  | succ depth ih =>
    cases rest with
    | nil => exact absurd rfl below
    | cons name rest =>
      have noFile : ¬ tree.IsFile dst := by
        have clear := awaits.clear [] (name :: rest) rfl (List.cons_ne_nil _ _)
        rwa [List.append_nil] at clear
      obtain ⟨made, makes, there, same⟩ := makedirs_ready ready noFile
      obtain ⟨grown, _, _, _⟩ := makedirs_grows source ready makes
      rw [copytree_made makes] at ended
      obtain ⟨listed, kind⟩ := awaits.head_there
      have member : (name, decide (tree.IsDir (src ++ [name]))) ∈ entries listing tree src :=
        mem_entries.mpr ⟨listed, rfl⟩
      have started : Awaits src dst (name :: rest) content made := awaits.made below apart there same
      have reached : Looping src dst tree copied ∧ copied.tree.node (dst ++ name :: rest) = some (.file content) := by
        refine @loop_reaches _ _ _ _
          (fun before => Looping src dst tree before ∧ Awaits src dst (name :: rest) content before.tree)
          (fun after => Looping src dst tree after ∧ after.tree.node (dst ++ name :: rest) = some (.file content))
          _ member entries_nodup ?_ ?_ ?_ _ _ ⟨⟨grown, there⟩, started⟩ ended
        · intro other inside different before after held stepped
          have turn := held.1.turn inside stepped
          have later := held.1.next turn
          exact ⟨later, held.2.other apart later.ready (entries_distinct inside different) turn.outside⟩
        · intro before after held stepped
          refine ⟨held.1.next (held.1.turn member stepped), ?_⟩
          apply copyEntry_delivers held.1 member (wanted name List.mem_cons_self) held.2 apart _ kind stepped
          intro deeper copied dir ready inner
          apply ih dir ready deeper (fun other inside => wanted other (List.mem_cons_of_mem name inside)) _ held.2.enter inner
          intro inside
          rw [List.append_assoc] at inside
          exact apart ((List.prefix_append dst [name]).trans inside)
        · intro other inside different before after held stepped
          have turn := held.1.turn inside stepped
          refine ⟨held.1.next turn, ?_⟩
          rw [turn.outside _, held.2]
          apply prefix_distinct (entries_distinct inside different)
          exact (List.prefix_append_right_inj dst).mpr (List.prefix_append [name] rest)
      exact reached.2

end Delivery

end CopyTree

end SblPayload.Library
