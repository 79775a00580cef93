import SblPayload.Library.CopyDescent
import SblPayload.PayloadCopy

/-! The copy of the payload ends unless its destination is inside the payload, two
levels down or deeper, and no name on the way there is ignored: then every copy
holds the way to the next one. -/

namespace SblPayload.Proofs.CopyEnds
open Library FileTree CopyTree PayloadCopy

variable {Content : Type} {listing : Listing Text Content} {tree made : FileTree Text Content}
  {mpyDir sblDir rest : List Text}

/-- A file of the payload that is to be copied. -/
structure Wanted (tree : FileTree Text Content) (mpyDir sblDir rest : List Text) (content : Content) : Prop where
  file : tree.node (mpyDir ++ rest) = some (.file content)
  kept : ∀ name ∈ rest, ignored name = false
  outside : ¬ mpyPmodDir sblDir <+: mpyDir ++ rest

/-- From some depth of the recursion on the copy has one result, and every wanted
file is in it. -/
def Copies (listing : Listing Text Content) (tree : FileTree Text Content) (mpyDir sblDir : List Text) : Prop :=
  ∃ depth copied, (∀ more ≥ depth, copyPayload listing more tree mpyDir sblDir = some copied) ∧
    ∀ rest content, Wanted tree mpyDir sblDir rest content →
      copied.tree.node (mpyPmodDir sblDir ++ rest) = some (.file content)

/-- No file stands where a wanted file needs a directory, and no directory where it
goes. -/
def Unobstructed (tree : FileTree Text Content) (mpyDir sblDir : List Text) : Prop :=
  ∀ rest content, Wanted tree mpyDir sblDir rest content →
    (∀ front last, rest = front ++ last → last ≠ [] → ¬ tree.IsFile (mpyPmodDir sblDir ++ front)) ∧
      ¬ tree.IsDir (mpyPmodDir sblDir ++ rest)

/-- The names from the payload to its copy, again and again. -/
def way (below : List Text) : Nat → Text := around (mpyPmodDir below) payloadModPkg

/-- The loader is inside the payload under names that are not ignored, and no file
is on the way from the payload to its copy, to the copy in that and so on. -/
def Descends (tree : FileTree Text Content) (mpyDir sblDir : List Text) : Prop :=
  ∃ below, below ≠ [] ∧ sblDir = mpyDir ++ below ∧ (∀ name ∈ below, ignored name = false) ∧
    ∀ count, ¬ tree.IsFile (mpyDir ++ spine (way below) count)

/-- The destination is made first if nothing is there. -/
structure Prepared (tree : FileTree Text Content) (pmod : List Text) (made : FileTree Text Content) : Prop where
  same : ∀ path, path ≠ pmod → made.node path = tree.node path
  there : made.node pmod = tree.node pmod ∨ tree.node pmod = none ∧ made.IsDir pmod

theorem Prepared.isFile_iff {pmod : List Text} (prepared : Prepared tree pmod made) (path : List Text) :
    made.IsFile path ↔ tree.IsFile path := by
  by_cases here : path = pmod
  · subst here
    rcases prepared.there with same | ⟨missing, dir⟩
    · rw [IsFile, same]
      rfl
    · constructor
      · exact fun file => absurd dir (not_dir_of_file file)
      · intro file
        obtain ⟨content, found⟩ := file
        rw [missing] at found
        cases found
  · rw [IsFile, prepared.same path here]
    rfl

theorem Prepared.dir {pmod path : List Text} (prepared : Prepared tree pmod made) (dir : tree.IsDir path) :
    made.IsDir path := by
  by_cases here : path = pmod
  · subst here
    rcases prepared.there with same | ⟨missing, _⟩
    · exact same.trans dir
    · rw [dir] at missing
      cases missing
  · exact (prepared.same path here).trans dir

theorem copyPayload_prepares (listing : Listing Text Content) (mpyDir : List Text) (sbl : tree.IsDir sblDir) :
    ∃ made, Prepared tree (mpyPmodDir sblDir) made ∧ ∀ depth, copyPayload listing depth tree mpyDir sblDir =
      if mpyDir = mpyPmodDir sblDir then some ⟨made, false⟩
      else copytree listing ignored depth made mpyDir (mpyPmodDir sblDir) := by
  unfold copyPayload
  cases found : tree.node (mpyPmodDir sblDir) with
  | some new => exact ⟨tree, ⟨fun _ _ => rfl, Or.inl rfl⟩, fun _ => rfl⟩
  | none =>
    have free : ¬ tree.IsFile (mpyPmodDir sblDir) := by
      intro file
      obtain ⟨content, there⟩ := file
      rw [there] at found
      cases found
    have ready : Ready tree (mpyPmodDir sblDir) := ⟨sblDir, payloadModPkg, rfl, sbl⟩
    obtain ⟨made, makes, dir, same⟩ := makedirs_ready ready free
    refine ⟨made, ⟨same, Or.inr ⟨found, dir⟩⟩, fun _ => ?_⟩
    rw [makes]
    rfl

/-- The bound on the recursion only decides whether there is a result. -/
theorem copyPayload_deeper {depth more : Nat} {copied : Copied Text Content} (deeper : depth ≤ more)
    (sbl : tree.IsDir sblDir) (ended : copyPayload listing depth tree mpyDir sblDir = some copied) :
    copyPayload listing more tree mpyDir sblDir = some copied := by
  obtain ⟨made, _, run⟩ := copyPayload_prepares listing mpyDir sbl
  rw [run] at ended ⊢
  split at ended
  next there =>
    rw [if_pos there]
    exact ended
  next elsewhere =>
    rw [if_neg elsewhere]
    exact copytree_deeper deeper ended

theorem Prepared.ready (prepared : Prepared tree (mpyPmodDir sblDir) made) (sbl : tree.IsDir sblDir) :
    Ready made (mpyPmodDir sblDir) := ⟨sblDir, payloadModPkg, rfl, prepared.dir sbl⟩

/-- What is there before the copy keeps its kind. -/
theorem copied_kinds {depth : Nat} {copied : Copied Text Content} (mpy : tree.IsDir mpyDir) (sbl : tree.IsDir sblDir)
    (ended : copyPayload listing depth tree mpyDir sblDir = some copied) (path : List Text) :
    (tree.IsDir path → copied.tree.IsDir path) ∧ (tree.IsFile path → copied.tree.IsFile path) := by
  obtain ⟨made, prepared, run⟩ := copyPayload_prepares listing mpyDir sbl
  rw [run] at ended
  split at ended
  · cases ended
    exact ⟨prepared.dir, (prepared.isFile_iff path).mpr⟩
  · have grown := copytree_grows (prepared.dir mpy) (prepared.ready sbl) ended
    have file := (prepared.isFile_iff path).mpr
    exact ⟨fun dir => grown.dirs path (prepared.dir dir), fun held => grown.files path (file held)⟩

theorem Wanted.below {content : Content} (wanted : Wanted tree mpyDir sblDir rest content) (mpy : tree.IsDir mpyDir) :
    rest ≠ [] := by
  intro empty
  have file : tree.IsFile mpyDir := ⟨content, by rw [← wanted.file, empty, List.append_nil]⟩
  exact not_dir_of_file file mpy

theorem Wanted.awaits {content : Content} (wanted : Wanted tree mpyDir sblDir rest content) (mpy : tree.IsDir mpyDir)
    (prepared : Prepared tree (mpyPmodDir sblDir) made) (unobstructed : Unobstructed tree mpyDir sblDir) :
    Awaits mpyDir (mpyPmodDir sblDir) rest content made := by
  obtain ⟨clear, free⟩ := unobstructed rest content wanted
  constructor
  · rw [prepared.same _ fun equal => wanted.outside (equal ▸ List.prefix_rfl)]
    exact wanted.file
  · intro front last split more file
    exact clear front last split more ((prepared.isFile_iff _).mp file)
  · intro dir
    have other : mpyPmodDir sblDir ++ rest ≠ mpyPmodDir sblDir :=
      fun equal => wanted.below mpy (List.append_right_eq_self.mp equal)
    exact free ((prepared.same _ other).symm.trans dir)

/-- Whatever stood in the way before the copy stands there after it. -/
theorem unobstructed_of_copies (mpy : tree.IsDir mpyDir) (sbl : tree.IsDir sblDir)
    (copies : Copies listing tree mpyDir sblDir) : Unobstructed tree mpyDir sblDir := by
  obtain ⟨depth, copied, settled, delivered⟩ := copies
  have ended := settled depth le_rfl
  intro rest content wanted
  have final := delivered rest content wanted
  constructor
  · intro front last split more file
    have there : (copied.tree.node (mpyPmodDir sblDir ++ front ++ last)).isSome := by
      rw [List.append_assoc, ← split, final]
      rfl
    exact not_dir_of_file ((copied_kinds mpy sbl ended _).2 file) (front_dir there more)
  · intro dir
    exact not_dir_of_file ⟨content, final⟩ ((copied_kinds mpy sbl ended _).1 dir)

theorem ignored_payloadModPkg : ignored payloadModPkg = false := by decide

theorem spine_way (below : List Text) : spine (way below) (mpyPmodDir below).length = mpyPmodDir below :=
  (spine_around le_rfl payloadModPkg).trans List.take_length

theorem way_periodic (below : List Text) (i : Nat) : way below (i + (mpyPmodDir below).length) = way below i :=
  around_periodic _ _ i

theorem length_pmod (below : List Text) : (mpyPmodDir below).length = below.length + 1 := by
  rw [mpyPmodDir, List.length_append, List.length_singleton]

/-- A destination inside the payload is at the end of the first round. -/
theorem pmod_inside (mpyDir below : List Text) :
    mpyPmodDir (mpyDir ++ below) = mpyDir ++ spine (way below) (mpyPmodDir below).length := by
  rw [spine_way]
  exact List.append_assoc _ _ _

theorem descends_never (listing : Listing Text Content) (sbl : tree.IsDir sblDir) (descends : Descends tree mpyDir sblDir)
    (depth : Nat) : copyPayload listing depth tree mpyDir sblDir = none := by
  obtain ⟨below, named, inside, wanted, free⟩ := descends
  subst inside
  obtain ⟨made, prepared, run⟩ := copyPayload_prepares listing mpyDir sbl
  have long := length_pmod below
  have more : 0 < below.length := List.length_pos_iff.mpr named
  have different : mpyDir ≠ mpyPmodDir (mpyDir ++ below) := by
    intro equal
    have lengths := congrArg List.length equal
    rw [length_pmod, List.length_append] at lengths
    omega
  have going : Open ignored (way below) mpyDir (mpyPmodDir below).length made := by
    constructor
    · intro i
      have member : way below i ∈ mpyPmodDir below :=
        around_mem (List.append_ne_nil_of_right_ne_nil _ (List.cons_ne_nil _ _)) _ i
      rcases List.mem_append.mp member with inner | last
      · exact wanted _ inner
      · rw [List.mem_singleton.mp last]
        exact ignored_payloadModPkg
    · intro i short
      have front : spine (way below) i = below.take i := by
        rw [way, spine_around (by omega), mpyPmodDir]
        exact List.take_append_of_le_length (by omega)
      apply prepared.dir
      rw [front]
      exact prefix_dir ((List.prefix_append_right_inj mpyDir).mpr (List.take_prefix i below)) sbl
    · intro i
      rw [prepared.isFile_iff]
      exact free i
  rw [run, if_neg different, pmod_inside]
  have start : copytree listing ignored depth made (mpyDir ++ spine (way below) 0)
      (mpyDir ++ spine (way below) (0 + (mpyPmodDir below).length)) = none := by
    apply spine_diverges (way_periodic below) (by omega)
    rw [Nat.zero_add]
    exact going
  rw [spine, List.append_nil, Nat.zero_add] at start
  exact start

theorem spine_zero (next : Nat → Text) : mpyDir ++ spine next 0 = mpyDir := List.append_nil mpyDir

/-- A copy that does not descend comes to the end of its way. -/
theorem stays_stops {below : List Text} {bound : Nat} (mpy : tree.IsDir mpyDir)
    (prepared : Prepared tree (mpyPmodDir (mpyDir ++ below)) made)
    (short : ∀ path, made.IsDir path → path.length ≤ bound) (stays : ¬ Descends tree mpyDir (mpyDir ++ below)) :
    ∃ last, Stops ignored (way below) mpyDir (mpyPmodDir below).length last made := by
  have long := length_pmod below
  by_cases named : below = []
  · refine ⟨bound, Or.inr (Or.inr ⟨by rw [long, named]; rfl, ?_⟩)⟩
    intro dir
    have deep := short _ dir
    rw [List.length_append, length_spine] at deep
    omega
  by_cases wanted : ∀ name ∈ below, ignored name = false
  · have blocked : ∃ count, tree.IsFile (mpyDir ++ spine (way below) count) := by
      by_contra free
      exact stays ⟨below, named, rfl, wanted, not_exists.mp free⟩
    obtain ⟨count, file⟩ := blocked
    cases count with
    | zero =>
      rw [spine_zero] at file
      exact absurd mpy (not_dir_of_file file)
    | succ last => exact ⟨last, Or.inr (Or.inl ((prepared.isFile_iff _).mpr file))⟩
  · obtain ⟨name, dropped⟩ := not_forall.mp wanted
    obtain ⟨member, dropped⟩ := Classical.not_imp.mp dropped
    obtain ⟨last, inside, same⟩ := List.getElem_of_mem member
    refine ⟨last, Or.inl ?_⟩
    have there : way below last = name := by
      rw [way, around_below (by omega)]
      exact (List.getElem_append_left inside).trans same
    rw [there]
    exact eq_true_of_ne_false dropped

/-- A destination inside the payload. -/
theorem inside_ends (listing : Listing Text Content) {below : List Text} (mpy : tree.IsDir mpyDir)
    (sbl : tree.IsDir (mpyDir ++ below)) (prepared : Prepared tree (mpyPmodDir (mpyDir ++ below)) made)
    (stays : ¬ Descends tree mpyDir (mpyDir ++ below)) :
    ∃ depth copied, copytree listing ignored depth made mpyDir (mpyPmodDir (mpyDir ++ below)) = some copied := by
  obtain ⟨bound, short⟩ := made.bounded
  have near : ∀ path, made.IsDir path → Near (way below) mpyDir bound path := by
    intro path dir other same
    have whole := short path dir
    rw [same, List.length_append] at whole
    omega
  obtain ⟨last, stops⟩ := stays_stops mpy prepared short stays
  have source : made.IsDir (mpyDir ++ spine (way below) 0) := (spine_zero (way below)).symm ▸ prepared.dir mpy
  have ready : Ready made (mpyDir ++ spine (way below) (0 + (mpyPmodDir below).length)) := by
    rw [Nat.zero_add, ← pmod_inside]
    exact prepared.ready sbl
  have ends : ∃ copied, copytree listing ignored (last + bound + 1) made (mpyDir ++ spine (way below) 0)
      (mpyDir ++ spine (way below) (0 + (mpyPmodDir below).length)) = some copied :=
    spine_ends (way_periodic below) source ready near stops (Nat.zero_add last) (by omega)
  obtain ⟨copied, ended⟩ := ends
  rw [spine_zero, Nat.zero_add, ← pmod_inside] at ended
  exact ⟨_, copied, ended⟩

/-- A destination that is not inside the payload: no path below the payload gets
longer. -/
theorem outside_ends (listing : Listing Text Content) (mpy : tree.IsDir mpyDir) (sbl : tree.IsDir sblDir)
    (prepared : Prepared tree (mpyPmodDir sblDir) made) (outside : ¬ mpyDir <+: mpyPmodDir sblDir) :
    ∃ depth copied, copytree listing ignored depth made mpyDir (mpyPmodDir sblDir) = some copied := by
  obtain ⟨bound, short⟩ := made.bounded
  refine ⟨bound + 1, ?_⟩
  apply @copytree_steady _ _ _ _ _ _ _ _ (fun path => mpyDir <+: path → path.length ≤ bound) bound
  · exact prepared.dir mpy
  · exact prepared.ready sbl
  · exact fun path dir _ => short path dir
  · intro rest held inside
    have above : mpyPmodDir sblDir <+: mpyDir :=
      (List.prefix_or_prefix_of_prefix inside (List.prefix_append _ rest)).resolve_left outside
    have short := held (List.prefix_append mpyDir rest)
    have shorter := above.length_le
    rw [List.length_append] at short ⊢
    omega
  · exact fun rest held => held (List.prefix_append mpyDir rest)
  · omega

theorem copy_ends (listing : Listing Text Content) (mpy : tree.IsDir mpyDir) (sbl : tree.IsDir sblDir)
    (stays : ¬ Descends tree mpyDir sblDir) :
    ∃ depth copied, copyPayload listing depth tree mpyDir sblDir = some copied := by
  obtain ⟨made, prepared, run⟩ := copyPayload_prepares listing mpyDir sbl
  by_cases there : mpyDir = mpyPmodDir sblDir
  · exact ⟨0, _, (run 0).trans (if_pos there)⟩
  simp only [run, if_neg there]
  by_cases inside : mpyDir <+: mpyPmodDir sblDir
  · have above : mpyDir <+: sblDir := (List.prefix_concat_iff.mp inside).resolve_left there
    obtain ⟨below, rfl⟩ := above
    exact inside_ends listing mpy sbl prepared stays
  · exact outside_ends listing mpy sbl prepared inside

/-- The payload is copied, whatever the order of the entries, exactly when nothing
stands in the way of a file and the copy does not descend into itself. -/
theorem payload_copied_iff (listing : Listing Text Content) (tree : FileTree Text Content) (mpyDir sblDir : List Text)
    (mpy : tree.IsDir mpyDir) (sbl : tree.IsDir sblDir) :
    Copies listing tree mpyDir sblDir ↔ Unobstructed tree mpyDir sblDir ∧ ¬ Descends tree mpyDir sblDir := by
  constructor
  · intro copies
    refine ⟨unobstructed_of_copies mpy sbl copies, ?_⟩
    intro descends
    obtain ⟨depth, copied, settled, _⟩ := copies
    have ended := settled depth le_rfl
    rw [descends_never listing sbl descends depth] at ended
    cases ended
  · rintro ⟨unobstructed, stays⟩
    obtain ⟨depth, copied, ended⟩ := copy_ends listing mpy sbl stays
    refine ⟨depth, copied, fun more deeper => copyPayload_deeper deeper sbl ended, ?_⟩
    intro rest content wanted
    obtain ⟨made, prepared, run⟩ := copyPayload_prepares listing mpyDir sbl
    have elsewhere : mpyDir ≠ mpyPmodDir sblDir := by
      intro same
      exact wanted.outside (same ▸ List.prefix_append _ rest)
    rw [run, if_neg elsewhere] at ended
    exact copytree_delivers (prepared.dir mpy) (prepared.ready sbl) (wanted.below mpy) wanted.kept wanted.outside
      (wanted.awaits mpy prepared unobstructed) ended

def inOrder : Listing Text Text where
  order _ _ names := names
  perm _ _ names := List.Perm.refl names

def payloads : List Text := ["payloads".toList]

def script : List Text × Node Text := (payloads ++ ["BuildMicroPython.py".toList], .file "import os".toList)

def inf : List (List Text × Node Text) :=
  [(payloads ++ ["MicroPython".toList], .dir),
    (payloads ++ ["MicroPython".toList, "MicroPython.inf".toList], .file "[Defines]".toList)]

/-- The loader beside the payload, and in it. -/
def withLoader (loader : List Text) : List (List Text × Node Text) :=
  ([], .dir) :: (payloads, .dir) :: (loader, .dir) :: script :: inf

def beside : FileTree Text Text := ofNodes (withLoader ["sbl".toList]) (by decide)

def within : FileTree Text Text := ofNodes (withLoader (payloads ++ ["sbl".toList])) (by decide)

theorem payload_copied_beside : Copies inOrder beside payloads ["sbl".toList] := by
  have absent : ∀ rest, beside.node (mpyPmodDir ["sbl".toList] ++ rest) = none := by
    intro rest
    by_contra there
    obtain ⟨new, found⟩ := Option.ne_none_iff_exists'.mp there
    have apart : ∀ entry ∈ beside.nodes, ¬ mpyPmodDir ["sbl".toList] <+: entry.1 := by decide
    exact apart _ (mem_nodes found) (List.prefix_append _ rest)
  refine (payload_copied_iff inOrder beside payloads ["sbl".toList] (by decide) (by decide)).mpr ⟨?_, ?_⟩
  · intro rest content _
    refine ⟨fun front _ _ _ file => ?_, fun dir => ?_⟩
    · obtain ⟨found, there⟩ := file
      rw [absent] at there
      cases there
    · rw [IsDir, absent] at dir
      cases dir
  · rintro ⟨below, _, inside, _⟩
    have front : payloads <+: ["sbl".toList] := inside ▸ List.prefix_append payloads below
    exact absurd front (by decide)

/-- With the loader in the payload, under a name that is not on the list. -/
theorem copy_never_ends : ¬ Copies inOrder within payloads (payloads ++ ["sbl".toList]) := by
  intro copies
  obtain ⟨depth, copied, settled, _⟩ := copies
  have ended := settled depth le_rfl
  have descends : Descends within payloads (payloads ++ ["sbl".toList]) := by
    refine ⟨["sbl".toList], List.cons_ne_nil _ _, rfl, by decide, ?_⟩
    intro count file
    obtain ⟨content, found⟩ := file
    have elsewhere : ∀ entry ∈ within.nodes, entry.2 ≠ .dir →
        entry.1 ≠ payloads ++ spine (way ["sbl".toList]) (entry.1.length - 1) := by decide
    apply elsewhere _ (mem_nodes found)
    · intro impossible
      cases impossible
    · have long : (payloads ++ spine (way ["sbl".toList]) count).length - 1 = count := by
        rw [List.length_append, length_spine]
        exact Nat.add_sub_cancel_left 1 count
      rw [long]
  rw [descends_never inOrder (by decide) descends depth] at ended
  cases ended

end SblPayload.Proofs.CopyEnds
