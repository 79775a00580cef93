import SblPayload.Library.CopyTree

/-! What `shutil.copytree` leaves in a destination that is not part of what is copied:
the source laid over what was there, when no file meets a directory. -/

namespace SblPayload.Library.CopyTree
open FileTree

variable {Name Content : Type}

/-- No name on the way is ignored. -/
def Kept (ignored : Name → Bool) (rest : List Name) : Prop := ∀ name ∈ rest, ignored name = false

instance (ignored : Name → Bool) (rest : List Name) : Decidable (Kept ignored rest) :=
  inferInstanceAs (Decidable (∀ name ∈ rest, ignored name = false))

theorem kept_nil (ignored : Name → Bool) : Kept ignored [] := List.forall_mem_nil _

theorem kept_cons {ignored : Name → Bool} {name : Name} {rest : List Name} :
    Kept ignored (name :: rest) ↔ ignored name = false ∧ Kept ignored rest := List.forall_mem_cons

/-- The destination is inside nothing that is copied. -/
def Apart (ignored : Name → Bool) (src dst : List Name) : Prop := ∀ rest, Kept ignored rest → ¬ dst <+: src ++ rest

theorem Apart.child {ignored : Name → Bool} {src dst : List Name} {name : Name} (apart : Apart ignored src dst)
    (wanted : ignored name = false) : Apart ignored (src ++ [name]) (dst ++ [name]) := by
  intro rest kept inside
  rw [List.append_assoc] at inside
  exact apart (name :: rest) (kept_cons.mpr ⟨wanted, kept⟩) ((List.prefix_append dst [name]).trans inside)

theorem Apart.distinct {ignored : Name → Bool} {src dst : List Name} (apart : Apart ignored src dst) : dst ≠ src := by
  intro same
  exact apart [] (kept_nil ignored) (same ▸ List.prefix_append _ _)

variable [DecidableEq Name]

/-- The source where it has something, the destination elsewhere. -/
def merged (ignored : Name → Bool) (tree : FileTree Name Content) (src dst rest : List Name) : Option (Node Content) :=
  if Kept ignored rest ∧ (tree.node (src ++ rest)).isSome then tree.node (src ++ rest) else tree.node (dst ++ rest)

/-- No file goes where a directory is, and no directory where a file is. -/
structure Compatible (ignored : Name → Bool) (tree : FileTree Name Content) (src dst : List Name) : Prop where
  dirs : ∀ rest, Kept ignored rest → tree.IsDir (src ++ rest) → ¬ tree.IsFile (dst ++ rest)
  files : ∀ rest, Kept ignored rest → tree.IsFile (src ++ rest) → ¬ tree.IsDir (dst ++ rest)

section Loop
variable {A B : Type} {step : B → A → Option B}

/-- What the turns so far have done, for the items they were for. -/
theorem loop_processed {holds : List A → B → Prop} {items : List A}
    (kept : ∀ front item last, items = front ++ item :: last → ∀ before after, holds front before →
      step before item = some after → holds (front ++ [item]) after)
    {start final : B} (held : holds [] start) (ended : items.foldlM step start = some final) : holds items final := by
  have from_here (last front : List A) (split : items = front ++ last) (current : B) (held : holds front current)
      (ended : last.foldlM step current = some final) : holds items final := by
    induction last generalizing front current with
    | nil =>
      rw [List.append_nil] at split
      exact Option.some.inj ended ▸ split ▸ held
    | cons item last ih =>
      rw [List.foldlM_cons] at ended
      obtain ⟨middle, stepped, ended⟩ := Option.bind_eq_some_iff.mp ended
      have next : items = front ++ [item] ++ last := by rw [split, List.append_assoc, List.singleton_append]
      exact ih (front ++ [item]) next middle (kept front item last split current middle held stepped) ended
  exact from_here items [] rfl start held ended

end Loop

section Overlay
variable {ignored : Name → Bool} {tree other : FileTree Name Content} {src dst rest : List Name} {name : Name}

theorem merged_congr (sources : ∀ rest, Kept ignored rest → other.node (src ++ rest) = tree.node (src ++ rest))
    (target : other.node (dst ++ rest) = tree.node (dst ++ rest)) :
    merged ignored other src dst rest = merged ignored tree src dst rest := by
  unfold merged
  rw [target]
  by_cases kept : Kept ignored rest
  · rw [sources rest kept]
  · rw [if_neg fun both => kept both.1, if_neg fun both => kept both.1]

theorem merged_child (wanted : ignored name = false) :
    merged ignored tree (src ++ [name]) (dst ++ [name]) rest = merged ignored tree src dst (name :: rest) := by
  have same : Kept ignored (name :: rest) ↔ Kept ignored rest := kept_cons.trans (and_iff_right wanted)
  simp only [merged, same, List.append_assoc, List.singleton_append]

theorem merged_ignored (dropped : ignored name = true) :
    merged ignored tree src dst (name :: rest) = tree.node (dst ++ name :: rest) := by
  apply if_neg
  intro both
  have kept := (kept_cons.mp both.1).1
  rw [dropped] at kept
  cases kept

/-- Where the source has nothing the destination stays. -/
theorem merged_absent (absent : tree.node (src ++ rest) = none) :
    merged ignored tree src dst rest = tree.node (dst ++ rest) := by
  apply if_neg
  intro both
  rw [absent] at both
  cases both.2

theorem merged_present (kept : Kept ignored rest) {new : Node Content} (there : tree.node (src ++ rest) = some new) :
    merged ignored tree src dst rest = some new := by
  rw [merged, if_pos ⟨kept, by rw [there]; rfl⟩, there]

/-- A copy leaves what it copies as it is. -/
theorem Apart.source (apart : Apart ignored src dst) (grown : Grows src dst tree other) (rest : List Name)
    (kept : Kept ignored rest) : other.node (src ++ rest) = tree.node (src ++ rest) :=
  grown.outside _ (apart rest kept)

theorem Compatible.child (compatible : Compatible ignored tree src dst) (wanted : ignored name = false)
    (sources : ∀ rest, Kept ignored rest → other.node (src ++ rest) = tree.node (src ++ rest))
    (target : ∀ rest, other.node (dst ++ name :: rest) = tree.node (dst ++ name :: rest)) :
    Compatible ignored other (src ++ [name]) (dst ++ [name]) where
  dirs rest kept := by
    have below := kept_cons.mpr ⟨wanted, kept⟩
    simp only [IsDir, IsFile, List.append_assoc, List.singleton_append, sources _ below, target]
    exact compatible.dirs _ below
  files rest kept := by
    have below := kept_cons.mpr ⟨wanted, kept⟩
    simp only [IsDir, IsFile, List.append_assoc, List.singleton_append, sources _ below, target]
    exact compatible.files _ below

theorem Compatible.free (compatible : Compatible ignored tree src dst) (source : tree.IsDir src) :
    ¬ tree.IsFile dst := by
  have here := compatible.dirs [] (kept_nil ignored)
  rw [List.append_nil, List.append_nil] at here
  exact here source

end Overlay

section Names
variable {listing : Listing Name Content} {tree : FileTree Name Content} {folder rest : List Name} {name : Name}

theorem entry_names : (entries listing tree folder).map Prod.fst = listing.order tree folder (tree.children folder) := by
  rw [entries, List.map_map]
  exact List.map_id _

theorem entry_names_nodup : ((entries listing tree folder).map Prod.fst).Nodup := by
  rw [entry_names]
  exact (listing.perm tree folder _).nodup_iff.mpr (List.nodup_dedup _)

/-- The entry a path below the folder begins with is listed. -/
theorem entry_listed (there : (tree.node (folder ++ name :: rest)).isSome) :
    name ∈ (entries listing tree folder).map Prod.fst := by
  rw [entry_names, (listing.perm tree folder _).mem_iff, mem_children]
  cases rest with
  | nil => exact there
  | cons next rest =>
    have whole : (tree.node (folder ++ [name] ++ next :: rest)).isSome := by
      rw [List.append_assoc]
      exact there
    rw [front_dir whole (List.cons_ne_nil _ _)]
    rfl

end Names

section Turns
variable {listing : Listing Name Content} {ignored : Name → Bool} {depth : Nat} {src dst rest : List Name} {name : Name}
  {tree : FileTree Name Content}

/-- The loop over the entries: those it has come to are merged, the others are as
they were. -/
structure Merging (ignored : Name → Bool) (src dst : List Name) (tree : FileTree Name Content)
    (front : List (Name × Bool)) (before : Copied Name Content) : Prop where
  looping : Looping src dst tree before
  clean : before.raised = false
  merged : ∀ name rest, name ∈ front.map Prod.fst →
    before.tree.node (dst ++ name :: rest) = merged ignored tree src dst (name :: rest)
  waiting : ∀ name rest, name ∉ front.map Prod.fst →
    before.tree.node (dst ++ name :: rest) = tree.node (dst ++ name :: rest)

theorem Merging.start {made : FileTree Name Content} (source : tree.IsDir src) (ready : Ready tree dst)
    (makes : tree.makedirs dst = some made) : Merging ignored src dst tree [] ⟨made, false⟩ := by
  obtain ⟨grown, there, _, same⟩ := makedirs_grows source ready makes
  refine ⟨⟨grown, there⟩, rfl, fun _ _ member => absurd member List.not_mem_nil, ?_⟩
  intro name rest _
  apply same
  intro equal
  cases List.append_right_eq_self.mp equal

/-- A turn merges what is under its own name. -/
theorem Merging.next {front : List (Name × Bool)} {before after : Copied Name Content} {entry : Name × Bool}
    (held : Merging ignored src dst tree front before)
    (turn : Grows (src ++ [entry.1]) (dst ++ [entry.1]) before.tree after.tree) (clean : after.raised = false)
    (own : ∀ rest, after.tree.node (dst ++ entry.1 :: rest) = CopyTree.merged ignored tree src dst (entry.1 :: rest)) :
    Merging ignored src dst tree (front ++ [entry]) after := by
  have others (name : Name) (rest : List Name) (different : entry.1 ≠ name) :
      after.tree.node (dst ++ name :: rest) = before.tree.node (dst ++ name :: rest) := by
    apply turn.outside
    apply prefix_distinct different.symm
    exact (List.prefix_append_right_inj dst).mpr (List.prefix_append [name] rest)
  refine ⟨held.looping.next turn, clean, ?_, ?_⟩
  · intro name rest member
    by_cases here : entry.1 = name
    · exact here ▸ own rest
    · rw [others name rest here]
      rw [List.map_append, List.mem_append] at member
      apply held.merged name rest
      exact member.resolve_right fun last => here (List.mem_singleton.mp last).symm
  · intro name rest absent
    rw [List.map_append, List.mem_append, not_or] at absent
    have different : entry.1 ≠ name := fun here => absent.2 (List.mem_singleton.mpr here.symm)
    rw [others name rest different]
    exact held.waiting name rest absent.1

/-- A file goes to its place. -/
theorem copy2_merges {before : Copied Name Content} (wanted : ignored name = false) (other : dst ≠ src)
    (there : before.tree.IsDir dst) (free : ¬ before.tree.IsDir (dst ++ [name])) {content : Content}
    (file : before.tree.node (src ++ [name]) = some (.file content)) :
    (copy2 before src dst name).raised = before.raised ∧
      ∀ rest, (copy2 before src dst name).tree.node (dst ++ name :: rest) =
        merged ignored before.tree src dst (name :: rest) := by
  have allowed : ¬ (dst = src ∨ ¬ before.tree.IsDir dst ∨ before.tree.IsDir (dst ++ [name])) := by
    rintro (same | missing | taken)
    · exact other same
    · exact missing there
    · exact free taken
  have copied : copy2 before src dst name = ⟨before.tree.put dst name (.file content), before.raised⟩ := by
    unfold copy2
    rw [if_neg free, file]
    dsimp only
    rw [if_neg allowed]
  rw [copied]
  refine ⟨rfl, fun rest => ?_⟩
  rw [node_put there free]
  cases rest with
  | nil =>
    have kept : Kept ignored [name] := kept_cons.mpr ⟨wanted, kept_nil ignored⟩
    rw [if_pos rfl, merged_present kept file]
  | cons next rest =>
    have below : before.tree.node (src ++ name :: next :: rest) = none := by
      by_contra some
      have whole : (before.tree.node (src ++ [name] ++ next :: rest)).isSome := by
        rw [List.append_assoc]
        exact Option.isSome_iff_ne_none.mpr some
      exact not_dir_of_file ⟨content, file⟩ (front_dir whole (List.cons_ne_nil _ _))
    have elsewhere : dst ++ name :: next :: rest ≠ dst ++ [name] := by
      intro same
      cases List.append_cancel_left same
    rw [if_neg elsewhere, merged_absent below]

/-- One turn, when a copy of a folder further down merges it. -/
theorem copyEntry_merges {front : List (Name × Bool)} {before after : Copied Name Content} {entry : Name × Bool}
    (held : Merging ignored src dst tree front before) (apart : Apart ignored src dst)
    (compatible : Compatible ignored tree src dst) (member : entry ∈ entries listing tree src)
    (fresh : entry.1 ∉ front.map Prod.fst)
    (inner : ∀ start src dst copied, start.IsDir src → Ready start dst → Apart ignored src dst →
      Compatible ignored start src dst → copytree listing ignored depth start src dst = some copied →
      copied.raised = false ∧ ∀ rest, copied.tree.node (dst ++ rest) = merged ignored start src dst rest)
    (stepped : copyEntry (copytree listing ignored depth) ignored src dst before entry = some after) :
    Merging ignored src dst tree (front ++ [entry]) after := by
  have sources := apart.source held.looping.grows
  have target (rest : List Name) := held.waiting entry.1 rest fresh
  have turn := held.looping.turn member stepped
  unfold copyEntry at stepped
  split at stepped
  next dropped =>
    cases stepped
    exact held.next turn held.clean fun rest => (target rest).trans (merged_ignored dropped).symm
  next wanted =>
    have wanted := eq_false_of_ne_true wanted
    split at stepped
    next isDir =>
      obtain ⟨copied, ended, same⟩ := Option.map_eq_some_iff.mp stepped
      obtain ⟨dir, ready⟩ := held.looping.entry_dir member isDir
      obtain ⟨clean, below⟩ := inner before.tree _ _ copied dir ready (apart.child wanted)
        (compatible.child wanted sources target) ended
      cases same
      refine held.next turn ?_ fun rest => ?_
      · dsimp only
        rw [held.clean, clean]
        rfl
      · have result := below rest
        rw [merged_child wanted, List.append_assoc, List.singleton_append] at result
        exact result.trans (merged_congr sources (target rest))
    next file =>
      cases stepped
      obtain ⟨listed, kind⟩ := mem_entries.mp member
      have alone : Kept ignored [entry.1] := kept_cons.mpr ⟨wanted, kept_nil ignored⟩
      have notDir : ¬ tree.IsDir (src ++ [entry.1]) := fun dir => file (kind.trans (decide_eq_true dir))
      obtain ⟨new, found⟩ := Option.isSome_iff_exists.mp listed
      cases new with
      | dir => exact absurd found notDir
      | file content =>
        have free : ¬ before.tree.IsDir (dst ++ [entry.1]) := by
          rw [IsDir, target []]
          exact compatible.files _ alone ⟨content, found⟩
        obtain ⟨clean, own⟩ := copy2_merges wanted apart.distinct held.looping.ready free
          ((sources _ alone).trans found)
        exact held.next turn (clean.trans held.clean) fun rest =>
          (own rest).trans (merged_congr sources (target rest))

/-- The whole copy, and no exception. -/
theorem copytree_merges {copied : Copied Name Content} (source : tree.IsDir src) (ready : Ready tree dst)
    (apart : Apart ignored src dst) (compatible : Compatible ignored tree src dst)
    (ended : copytree listing ignored depth tree src dst = some copied) :
    copied.raised = false ∧ ∀ rest, copied.tree.node (dst ++ rest) = merged ignored tree src dst rest := by
  induction depth generalizing tree src dst copied with
  | zero => cases ended
  | succ depth ih =>
    obtain ⟨made, makes, _, _⟩ := makedirs_ready ready (compatible.free source)
    rw [copytree_made makes] at ended
    have names : ((entries listing tree src).map Prod.fst).Nodup := entry_names_nodup
    have whole : Merging ignored src dst tree (entries listing tree src) copied := by
      refine loop_processed ?_ (Merging.start source ready makes) ended
      intro front entry last split before after held stepped
      have member : entry ∈ entries listing tree src := split ▸ List.mem_append_right front List.mem_cons_self
      have fresh : entry.1 ∉ front.map Prod.fst := by
        rw [split, List.map_append, List.map_cons] at names
        exact fun again => List.disjoint_of_nodup_append names again List.mem_cons_self
      exact copyEntry_merges held apart compatible member fresh
        (fun start src dst copied dir ready apart compatible inner => ih dir ready apart compatible inner) stepped
    refine ⟨whole.clean, fun rest => ?_⟩
    cases rest with
    | nil =>
      have there : tree.node (src ++ []) = some .dir := (List.append_nil src).symm ▸ source
      rw [merged_present (kept_nil ignored) there, List.append_nil]
      exact whole.looping.ready
    | cons name rest =>
      by_cases listed : name ∈ (entries listing tree src).map Prod.fst
      · exact whole.merged name rest listed
      · rw [whole.waiting name rest listed]
        have absent : tree.node (src ++ name :: rest) = none := by
          by_contra found
          exact listed (entry_listed (Option.isSome_iff_ne_none.mpr found))
        exact (merged_absent absent).symm

end Turns

end SblPayload.Library.CopyTree
