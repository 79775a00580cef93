import Mathlib.Data.List.GetD
import SblPayload.Library.CopyTree

/-! Whether a copy ends that is made in the tree it is taken from. It follows the
way to its own destination again and again, from one copy of it into the next. -/

namespace SblPayload.Library.CopyTree
open FileTree

variable {Name Content : Type} [DecidableEq Name]

section Termination
variable {src dst : List Name} {tree : FileTree Name Content} {listing : Listing Name Content} {ignored : Name → Bool}
  {fair : List Name → Prop} {bound depth : Nat}

/-- A turn of the loop ends if the copy of a directory does. -/
theorem Looping.ends {before : Copied Name Content} {entry : Name × Bool} (held : Looping src dst tree before)
    (member : entry ∈ entries listing tree src)
    (inner : ignored entry.1 = false → entry.2 = true → before.tree.IsDir (src ++ [entry.1]) →
      Ready before.tree (dst ++ [entry.1]) →
      ∃ copied, copytree listing ignored depth before.tree (src ++ [entry.1]) (dst ++ [entry.1]) = some copied) :
    ∃ after, copyEntry (copytree listing ignored depth) ignored src dst before entry = some after ∧
      Looping src dst tree after := by
  have ends : ∃ after, copyEntry (copytree listing ignored depth) ignored src dst before entry = some after := by
    unfold copyEntry
    split
    · exact ⟨before, rfl⟩
    next wanted =>
      split
      next isDir =>
        obtain ⟨dir, ready⟩ := held.entry_dir member isDir
        obtain ⟨copied, ended⟩ := inner (eq_false_of_ne_true wanted) isDir dir ready
        rw [ended]
        exact ⟨_, rfl⟩
      next => exact ⟨_, rfl⟩
  obtain ⟨after, stepped⟩ := ends
  exact ⟨after, stepped, held.next (held.turn member stepped)⟩

/-- A copy ends if the paths of the directories there are, and of their images, do
not grow beyond a bound. -/
theorem copytree_steady (source : tree.IsDir src) (ready : Ready tree dst) (holds : ∀ path, tree.IsDir path → fair path)
    (moved : ∀ rest, fair (src ++ rest) → fair (dst ++ rest))
    (short : ∀ rest, fair (src ++ rest) → (src ++ rest).length ≤ bound) (deep : bound < src.length + depth) :
    ∃ copied, copytree listing ignored depth tree src dst = some copied := by
  induction depth generalizing tree src dst with
  | zero =>
    have here := short [] ((List.append_nil src).symm ▸ holds src source)
    rw [List.append_nil] at here
    exact absurd deep (Nat.not_lt.mpr here)
  | succ depth ih =>
    cases makes : tree.makedirs dst with
    | none => exact ⟨_, copytree_blocked makes⟩
    | some made =>
      obtain ⟨grown, there, _, _⟩ := makedirs_grows source ready makes
      rw [copytree_made makes]
      have started : Looping src dst tree ⟨made, false⟩ := ⟨grown, there⟩
      refine loop_ends ?_ started
      intro entry member before held
      apply held.ends member
      intro _ _ dir ready
      apply ih dir ready (held.grows.images fair moved holds)
      · intro rest inside
        rw [List.append_assoc] at inside ⊢
        exact moved _ inside
      · intro rest inside
        rw [List.append_assoc] at inside ⊢
        exact short _ inside
      · rw [List.length_append, List.length_singleton]
        omega

end Termination

section Spine

/-- The way along the names `next 0`, `next 1` and so on. -/
def spine (next : Nat → Name) : Nat → List Name
  | 0 => []
  | count + 1 => spine next count ++ [next count]

/-- Some names over and over. -/
def around (names : List Name) (spare : Name) (i : Nat) : Name := names.getD (i % names.length) spare

omit [DecidableEq Name] in
theorem around_periodic (names : List Name) (spare : Name) (i : Nat) :
    around names spare (i + names.length) = around names spare i := by
  rw [around, Nat.add_mod_right]
  rfl

omit [DecidableEq Name] in
theorem around_below {names : List Name} {i : Nat} (inside : i < names.length) (spare : Name) :
    around names spare i = names[i] := by
  rw [around, Nat.mod_eq_of_lt inside]
  exact List.getD_eq_getElem names spare inside

omit [DecidableEq Name] in
theorem around_mem {names : List Name} (named : names ≠ []) (spare : Name) (i : Nat) : around names spare i ∈ names := by
  have inside : i % names.length < names.length := Nat.mod_lt i (List.length_pos_iff.mpr named)
  rw [around, List.getD_eq_getElem names spare inside]
  exact List.getElem_mem inside

omit [DecidableEq Name] in
theorem spine_around {names : List Name} {count : Nat} (inside : count ≤ names.length) (spare : Name) :
    spine (around names spare) count = names.take count := by
  induction count with
  | zero => rfl
  | succ count ih =>
    rw [spine, ih (by omega), around_below (by omega)]
    exact List.take_append_getElem inside

/-- How long a path stays on that way. -/
def common (next : Nat → Name) : Nat → List Name → Nat
  | _, [] => 0
  | i, name :: rest => if name = next i then common next (i + 1) rest + 1 else 0

variable {next : Nat → Name} {base : List Name} {period slack : Nat}

omit [DecidableEq Name] in
theorem length_spine (count : Nat) : (spine next count).length = count := by
  induction count with
  | zero => rfl
  | succ count ih => rw [spine, List.length_append, ih, List.length_singleton]

omit [DecidableEq Name] in
theorem spine_prefix {first last : Nat} (before : first ≤ last) : spine next first <+: spine next last := by
  induction before with
  | refl => exact List.prefix_rfl
  | step _ ih => exact ih.trans (List.prefix_append _ _)

omit [DecidableEq Name] in
theorem spine_inj {first last : Nat} (same : base ++ spine next first = base ++ spine next last) : first = last := by
  have lengths := congrArg List.length same
  simp only [List.length_append, length_spine] at lengths
  exact Nat.add_left_cancel lengths

omit [DecidableEq Name] in
theorem spine_below (base : List Name) (i : Nat) :
    base ++ spine next i ++ [next i] = base ++ spine next (i + 1) := List.append_assoc _ _ _

omit [DecidableEq Name] in
theorem spine_further (periodic : ∀ i, next (i + period) = next i) (base : List Name) (i : Nat) :
    base ++ spine next (i + period) ++ [next i] = base ++ spine next (i + 1 + period) := by
  rw [← periodic, spine_below, Nat.add_right_comm]

omit [DecidableEq Name] in
/-- Nothing on the way is under a name beside it. -/
theorem spine_apart {name : Name} {first : Nat} (different : name ≠ next first) (last : Nat) :
    ¬ base ++ spine next first ++ [name] <+: base ++ spine next last := by
  intro inside
  have long := inside.length_le
  simp only [List.length_append, length_spine, List.length_singleton] at long
  have further : spine next (first + 1) <+: spine next last := spine_prefix (by omega)
  have along : base ++ spine next first ++ [next first] <+: base ++ spine next last := by
    rw [List.append_assoc]
    exact (List.prefix_append_right_inj base).mpr further
  exact prefix_distinct different inside along

theorem common_spine (count : Nat) (rest : List Name) :
    common next 0 (spine next count ++ rest) = count + common next count rest := by
  induction count generalizing rest with
  | zero => rw [spine, List.nil_append, Nat.zero_add]
  | succ count ih =>
    rw [spine, List.append_assoc, ih, List.singleton_append, common, if_pos rfl]
    omega

theorem common_shift (periodic : ∀ i, next (i + period) = next i) (i : Nat) (rest : List Name) :
    common next (i + period) rest = common next i rest := by
  induction rest generalizing i with
  | nil => rfl
  | cons name rest ih =>
    have later : common next (i + period + 1) rest = common next (i + 1) rest := by
      rw [Nat.add_right_comm]
      exact ih (i + 1)
    rw [common, common, periodic, later]

/-- A path that leads away from the way is short from there on. -/
def Near (next : Nat → Name) (base : List Name) (slack : Nat) (path : List Name) : Prop :=
  ∀ rest, path = base ++ rest → rest.length ≤ common next 0 rest + slack

theorem near_spine (i : Nat) (rest : List Name) :
    Near next base slack (base ++ spine next i ++ rest) ↔ rest.length ≤ common next i rest + slack := by
  have shape : base ++ spine next i ++ rest = base ++ (spine next i ++ rest) := List.append_assoc _ _ _
  constructor
  · intro near
    have bounded := near _ shape
    rw [common_spine, List.length_append, length_spine] at bounded
    omega
  · intro bounded other same
    rw [shape] at same
    rw [← List.append_cancel_left same, common_spine, List.length_append, length_spine]
    omega

theorem near_moved (periodic : ∀ i, next (i + period) = next i) (i : Nat) (rest : List Name)
    (near : Near next base slack (base ++ spine next i ++ rest)) :
    Near next base slack (base ++ spine next (i + period) ++ rest) := by
  rw [near_spine] at near ⊢
  rw [common_shift periodic]
  exact near

theorem near_beside {name : Name} {i : Nat} (different : name ≠ next i) (rest : List Name)
    (near : Near next base slack (base ++ spine next i ++ [name] ++ rest)) :
    (base ++ spine next i ++ [name] ++ rest).length ≤ base.length + i + slack := by
  rw [List.append_assoc, List.singleton_append, near_spine, common, if_neg different, List.length_cons] at near
  simp only [List.length_append, length_spine, List.length_singleton]
  omega

variable {last : Nat}

/-- What ends the way at some level: a name that is ignored, a file, or, if every
level is the copy of the one above it, nothing that was there before. -/
def Stops (ignored : Name → Bool) (next : Nat → Name) (base : List Name) (period last : Nat)
    (tree : FileTree Name Content) : Prop :=
  ignored (next last) = true ∨ tree.IsFile (base ++ spine next (last + 1)) ∨
    period = 1 ∧ ¬ tree.IsDir (base ++ spine next (last + 1))

theorem Stops.keep {before after : FileTree Name Content} (stops : Stops ignored next base period last before)
    (files : ∀ path, before.IsFile path → after.IsFile path)
    (dirs : period = 1 → after.IsDir (base ++ spine next (last + 1)) → before.IsDir (base ++ spine next (last + 1))) :
    Stops ignored next base period last after := by
  rcases stops with ignores | file | ⟨single, missing⟩
  · exact Or.inl ignores
  · exact Or.inr (Or.inl (files _ file))
  · exact Or.inr (Or.inr ⟨single, fun dir => missing (dirs single dir)⟩)

/-- At the last level nothing that is copied as a directory is on the way. -/
theorem Stops.beside {entry : Name × Bool} (stops : Stops ignored next base period last tree)
    (member : entry ∈ entries listing tree (base ++ spine next last)) (wanted : ignored entry.1 = false)
    (isDir : entry.2 = true) : entry.1 ≠ next last := by
  intro same
  have dir : tree.IsDir (base ++ spine next (last + 1)) := by
    have there : tree.IsDir (base ++ spine next last ++ [entry.1]) :=
      of_decide_eq_true ((mem_entries.mp member).2.symm.trans isDir)
    rw [same, List.append_assoc] at there
    exact there
  rcases stops with ignores | file | ⟨_, missing⟩
  · rw [← same, wanted] at ignores
    cases ignores
  · exact not_dir_of_file file dir
  · exact missing dir

/-- The copy of an entry that is not on the way ends, however many levels are left. -/
theorem beside_ends {i : Nat} {before : Copied Name Content} {entry : Name × Bool}
    (periodic : ∀ i, next (i + period) = next i)
    (held : Looping (base ++ spine next i) (base ++ spine next (i + period)) tree before)
    (near : ∀ path, tree.IsDir path → Near next base slack path)
    (member : entry ∈ entries listing tree (base ++ spine next i)) (deep : slack < depth + 1)
    (beside : ignored entry.1 = false → entry.2 = true → entry.1 ≠ next i) :
    ∃ after, copyEntry (copytree listing ignored depth) ignored (base ++ spine next i) (base ++ spine next (i + period))
      before entry = some after ∧
      Looping (base ++ spine next i) (base ++ spine next (i + period)) tree after := by
  apply held.ends member
  intro wanted isDir dir ready
  refine copytree_steady dir ready (held.grows.images _ (near_moved periodic i) near) ?_
    (near_beside (beside wanted isDir)) ?_
  · intro rest inside
    rw [List.append_assoc] at inside ⊢
    exact near_moved periodic i _ inside
  · simp only [List.length_append, length_spine, List.length_singleton]
    omega

theorem copyEntry_file_dirs {src dst path : List Name} {before after : Copied Name Content} {entry : Name × Bool}
    (file : entry.2 = false)
    (stepped : copyEntry (copytree listing ignored depth) ignored src dst before entry = some after)
    (dir : after.tree.IsDir path) : before.tree.IsDir path := by
  unfold copyEntry at stepped
  rw [if_neg (ne_true_of_eq_false file)] at stepped
  split at stepped
  · cases stepped
    exact dir
  · cases stepped
    exact copy2_dirs dir

/-- An entry that is not the next directory on the way makes no directory there. -/
theorem beside_dirs {i : Nat} {before after : Copied Name Content} {entry : Name × Bool}
    (periodic : ∀ i, next (i + period) = next i) (different : entry ≠ (next i, true))
    (turn : Grows (base ++ spine next i ++ [entry.1]) (base ++ spine next (i + period) ++ [entry.1]) before.tree after.tree)
    (stepped : copyEntry (copytree listing ignored depth) ignored (base ++ spine next i) (base ++ spine next (i + period))
      before entry = some after) (count : Nat) (dir : after.tree.IsDir (base ++ spine next count)) :
    before.tree.IsDir (base ++ spine next count) := by
  by_cases same : entry.1 = next i
  · apply copyEntry_file_dirs _ stepped dir
    apply eq_false_of_ne_true
    intro isDir
    exact different (Prod.ext_iff.mpr ⟨same, isDir⟩)
  · have apart := @spine_apart _ next base entry.1 (i + period) (by rw [periodic]; exact same) count
    exact (turn.outside _ apart).symm.trans dir

/-- One step down the way for every level of the recursion, until it stops. -/
theorem spine_ends {i left : Nat} (periodic : ∀ i, next (i + period) = next i)
    (source : tree.IsDir (base ++ spine next i)) (ready : Ready tree (base ++ spine next (i + period)))
    (near : ∀ path, tree.IsDir path → Near next base slack path) (stops : Stops ignored next base period last tree)
    (level : i + left = last) (deep : left + slack < depth) :
    ∃ copied,
      copytree listing ignored depth tree (base ++ spine next i) (base ++ spine next (i + period)) = some copied := by
  induction depth generalizing tree i left with
  | zero => exact absurd deep (Nat.not_lt_zero _)
  | succ depth ih =>
    cases makes : tree.makedirs (base ++ spine next (i + period)) with
    | none => exact ⟨_, copytree_blocked makes⟩
    | some made =>
      obtain ⟨grown, there, _, same⟩ := makedirs_grows source ready makes
      rw [copytree_made makes]
      have started : Looping (base ++ spine next i) (base ++ spine next (i + period)) tree ⟨made, false⟩ :=
        ⟨grown, there⟩
      have shallow : slack < depth + 1 := by omega
      cases left with
      | zero =>
        rw [Nat.add_zero] at level
        subst level
        refine loop_ends ?_ started
        intro entry member before held
        exact beside_ends periodic held near member shallow (stops.beside member)
      | succ left =>
        have startStops : Stops ignored next base period last made := by
          apply stops.keep grown.files
          intro single dir
          refine (same _ ?_).symm.trans dir
          intro equal
          have level := spine_inj equal
          omega
        refine @loop_ends_once _ _ _ _
          (fun before => Looping (base ++ spine next i) (base ++ spine next (i + period)) tree before ∧
            Stops ignored next base period last before.tree)
          (fun after => Looping (base ++ spine next i) (base ++ spine next (i + period)) tree after)
          (next i, true) entries_nodup ?_ ?_ ?_ _ ⟨started, startStops⟩
        · intro other member different before held
          obtain ⟨after, stepped, later⟩ := beside_ends periodic held.1 near member shallow
            (fun _ isDir equal => different (Prod.ext_iff.mpr ⟨equal, isDir⟩))
          have turn := held.1.turn member stepped
          refine ⟨after, stepped, later, held.2.keep turn.files ?_⟩
          exact fun _ dir => beside_dirs periodic different turn stepped _ dir
        · intro member before held
          apply held.1.ends member
          intro _ _ dir ready
          dsimp only at dir ready ⊢
          rw [spine_below] at dir ⊢
          rw [spine_further periodic] at ready ⊢
          have levels : i + 1 + left = last := by omega
          have deeper : left + slack < depth := by omega
          exact ih dir ready (held.1.grows.images _ (near_moved periodic i) near) held.2 levels deeper
        · intro other member different before held
          exact beside_ends periodic held near member shallow
            (fun _ isDir equal => different (Prod.ext_iff.mpr ⟨equal, isDir⟩))

/-- The way goes on: so far it leads through directories, and nothing ends it. -/
structure Open (ignored : Name → Bool) (next : Nat → Name) (base : List Name) (count : Nat)
    (tree : FileTree Name Content) : Prop where
  wanted : ∀ i, ignored (next i) = false
  dirs : ∀ i < count, tree.IsDir (base ++ spine next i)
  free : ∀ i, ¬ tree.IsFile (base ++ spine next i)

theorem Open.keep {count : Nat} {before after : FileTree Name Content} (way : Open ignored next base count before)
    (same : ∀ i, after.node (base ++ spine next i) = before.node (base ++ spine next i)) :
    Open ignored next base count after where
  wanted := way.wanted
  dirs i below := (same i).trans (way.dirs i below)
  free i := by
    rw [IsFile, same]
    exact way.free i

/-- Every level makes one more directory for the level below it. -/
theorem Open.further {count : Nat} {made : FileTree Name Content} (way : Open ignored next base count tree)
    (there : made.IsDir (base ++ spine next count))
    (same : ∀ path, path ≠ base ++ spine next count → made.node path = tree.node path) :
    Open ignored next base (count + 1) made where
  wanted := way.wanted
  dirs i below := by
    by_cases last : i = count
    · exact last ▸ there
    · exact (same _ fun equal => last (spine_inj equal)).trans (way.dirs i (by omega))
  free i file := by
    by_cases last : base ++ spine next i = base ++ spine next count
    · exact not_dir_of_file file (last ▸ there)
    · rw [IsFile, same _ last] at file
      exact way.free i file

/-- A copy to two levels below its source or deeper never ends if the way is open:
the next directory is there before it is looked for. -/
theorem spine_diverges {i : Nat} (periodic : ∀ i, next (i + period) = next i) (deep : 2 ≤ period)
    (way : Open ignored next base (i + period) tree) :
    copytree listing ignored depth tree (base ++ spine next i) (base ++ spine next (i + period)) = none := by
  induction depth generalizing tree i with
  | zero => rfl
  | succ depth ih =>
    have source : tree.IsDir (base ++ spine next i) := way.dirs i (by omega)
    have ready : Ready tree (base ++ spine next (i + period)) := by
      obtain ⟨count, same⟩ := Nat.exists_eq_add_one_of_ne_zero (show i + period ≠ 0 by omega)
      exact ⟨base ++ spine next count, next count, by rw [same, spine_below], way.dirs count (by omega)⟩
    obtain ⟨made, makes, there, same⟩ := makedirs_ready ready (way.free _)
    obtain ⟨grown, _, _, _⟩ := makedirs_grows source ready makes
    rw [copytree_made makes]
    have dir : tree.IsDir (base ++ spine next i ++ [next i]) := by
      rw [spine_below]
      exact way.dirs (i + 1) (by omega)
    have member : (next i, true) ∈ entries listing tree (base ++ spine next i) := by
      refine mem_entries.mpr ⟨?_, (decide_eq_true dir).symm⟩
      rw [dir]
      rfl
    have stuck : ∀ before : Copied Name _, Open ignored next base (i + period + 1) before.tree →
        copyEntry (copytree listing ignored depth) ignored (base ++ spine next i) (base ++ spine next (i + period))
          before (next i, true) = none := by
      intro before way
      unfold copyEntry
      rw [if_neg (ne_true_of_eq_false (way.wanted i)), if_pos rfl, spine_further periodic, spine_below]
      rw [Nat.add_right_comm] at way
      rw [ih way]
      rfl
    refine @loop_stuck _ _ _ _
      (fun before => Looping (base ++ spine next i) (base ++ spine next (i + period)) tree before ∧
        Open ignored next base (i + period + 1) before.tree)
      ?_ _ member (fun before held => stuck before held.2) ⟨made, false⟩ ⟨⟨grown, there⟩, way.further there same⟩
    intro other inside before after held stepped
    have different : other ≠ (next i, decide (tree.IsDir (base ++ spine next i ++ [next i]))) := by
      intro same
      rw [same, decide_eq_true dir, stuck before held.2] at stepped
      cases stepped
    have turn := held.1.turn inside stepped
    refine ⟨held.1.next turn, held.2.keep fun count => ?_⟩
    apply turn.outside
    apply spine_apart
    rw [periodic]
    exact (entries_distinct inside different).symm

end Spine

end SblPayload.Library.CopyTree
