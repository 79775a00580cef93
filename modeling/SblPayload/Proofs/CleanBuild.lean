import SblPayload.PayloadClean
import SblPayload.Proofs.PayloadHistory

/-! Building and cleaning in any order. Neither harms the payload, and after the loader
is deleted the next package is the payload, with nothing left of the packages before. -/

namespace SblPayload.Proofs.CleanBuild
open Library FileTree CopyTree PayloadCopy PayloadClean CopyEnds PayloadMirror PayloadHistory

variable {Content : Type} {git : GitClean Content} {tree fetched first : FileTree Text Content} {args : CleanArgs}
  {mpyDir path rest : List Text}

theorem kept_outside {name : Text} (skipped : ignored name = true) (kept : Kept ignored rest) :
    ¬ mpyDir ++ [name] <+: mpyDir ++ rest := by
  intro inside
  cases rest with
  | nil =>
    rw [List.prefix_append_right_inj] at inside
    exact List.cons_ne_nil _ _ (List.prefix_nil.mp inside)
  | cons head rest =>
    rw [List.prefix_append_right_inj, List.cons_prefix_cons] at inside
    rw [inside.1, (kept_cons.mp kept).1] at skipped
    cases skipped

theorem kept_not_build (kept : Kept ignored rest) : ¬ buildDir mpyDir <+: mpyDir ++ rest := kept_outside (by decide) kept

theorem kept_not_sbl (kept : Kept ignored rest) : ¬ sblDir mpyDir <+: mpyDir ++ rest := kept_outside (by decide) kept

/-- The loader that is fetched into the payload is not copied with it. -/
theorem own_apart (mpyDir : List Text) : Apart ignored mpyDir (mpyPmodDir (sblDir mpyDir)) :=
  fun _ kept inside => kept_not_sbl kept ((List.prefix_append _ _).trans inside)

/-- `git clean` takes something away below the directory it runs in, if anywhere. -/
structure CleansWithin (git : GitClean Content) : Prop where
  within : ∀ tree dir left path, git tree dir = some left → ¬ dir <+: path → left.node path = tree.node path

section Cleaning

theorem cmdClean_outside (confined : CleansWithin git) (build : ¬ buildDir mpyDir <+: path) (sbl : ¬ sblDir mpyDir <+: path) :
    (cmdClean git tree mpyDir args).tree.node path = tree.node path := by
  have removed : (tree.rmtree (buildDir mpyDir)).node path = tree.node path := rmtree_outside build
  unfold cmdClean
  dsimp only
  split
  · split
    · rw [rmtree_outside sbl, removed]
    · split
      · exact removed
      · split
        next left cleaned => rw [confined.within _ _ _ _ cleaned sbl, removed]
        next => exact removed
  · exact removed

theorem cmdClean_kept (confined : CleansWithin git) (kept : Kept ignored rest) :
    (cmdClean git tree mpyDir args).tree.node (mpyDir ++ rest) = tree.node (mpyDir ++ rest) :=
  cmdClean_outside confined (kept_not_build kept) (kept_not_sbl kept)

/-- With the option to delete the loader, both directories are removed. -/
theorem cmdClean_deletes (deletes : args.delSbl = true) :
    (cmdClean git tree mpyDir args).tree = (tree.rmtree (buildDir mpyDir)).rmtree (sblDir mpyDir) := by
  unfold cmdClean
  dsimp only
  rw [if_pos deletes]
  split
  · rfl
  next missing =>
    have noDir : ¬ (tree.rmtree (buildDir mpyDir)).IsDir (sblDir mpyDir) := by
      intro dir
      rw [dir] at missing
      exact missing rfl
    exact (if_neg noDir).symm

end Cleaning

theorem build_not_sbl (mpyDir : List Text) : ¬ sblDir mpyDir <+: buildDir mpyDir := by
  rw [sblDir, buildDir, List.prefix_append_right_inj]
  decide

theorem sbl_not_build (mpyDir : List Text) : ¬ buildDir mpyDir <+: sblDir mpyDir := by
  rw [sblDir, buildDir, List.prefix_append_right_inj]
  decide

theorem package_below (mpyDir : List Text) : ¬ mpyPmodDir (sblDir mpyDir) <+: sblDir mpyDir := by
  intro inside
  have short := inside.length_le
  rw [mpyPmodDir, List.length_append, List.length_singleton] at short
  omega

/-- Any work with the script: the payload prepared in loaders outside what is copied,
also in vain, cleanings of every kind, and processes that leave alone what is copied. -/
inductive Worked (git : GitClean Content) (mpyDir : List Text) (first : FileTree Text Content) :
    FileTree Text Content → Prop where
  | start : Worked git mpyDir first first
  | process {before after} (earlier : Worked git mpyDir first before)
      (kept : ∀ rest, Kept ignored rest → after.node (mpyDir ++ rest) = before.node (mpyDir ++ rest)) :
      Worked git mpyDir first after
  | prepared {before listing depth loader copied} (earlier : Worked git mpyDir first before) (sbl : before.IsDir loader)
      (apart : Apart ignored mpyDir (mpyPmodDir loader))
      (ended : copyPayload listing depth before mpyDir loader = some copied) : Worked git mpyDir first copied.tree
  | cleaned {before} (earlier : Worked git mpyDir first before) (args : CleanArgs) :
      Worked git mpyDir first (cmdClean git before mpyDir args).tree

theorem worked_kept (confined : CleansWithin git) (mpy : first.IsDir mpyDir) (worked : Worked git mpyDir first tree)
    (kept : Kept ignored rest) : tree.node (mpyDir ++ rest) = first.node (mpyDir ++ rest) := by
  induction worked generalizing rest with
  | start => rfl
  | process earlier same ih => exact (same rest kept).trans (ih kept)
  | prepared earlier sbl apart ended ih =>
    have top := ih (kept_nil ignored)
    rw [List.append_nil] at top
    exact (copyPayload_outside (top.trans mpy) sbl ended _ (apart rest kept)).trans (ih kept)
  | cleaned earlier args ih => exact (cmdClean_kept confined kept).trans (ih kept)

/-- A loader without a package is fetched to where there is none. -/
structure Fetches (mpyDir : List Text) (before fetched : FileTree Text Content) : Prop where
  there : fetched.IsDir (sblDir mpyDir)
  outside : ∀ path, ¬ sblDir mpyDir <+: path → fetched.node path = before.node path
  package : ∀ rest, fetched.node (mpyPmodDir (sblDir mpyDir) ++ rest) = before.node (mpyPmodDir (sblDir mpyDir) ++ rest)

section Fetching
variable (deletes : args.delSbl = true) (fetches : Fetches mpyDir (cmdClean git tree mpyDir args).tree fetched)
include deletes fetches

theorem fetched_package (rest : List Text) : fetched.node (mpyPmodDir (sblDir mpyDir) ++ rest) = none := by
  rw [fetches.package, cmdClean_deletes deletes, mpyPmodDir, List.append_assoc]
  exact rmtree_below (List.append_ne_nil_of_left_ne_nil (List.cons_ne_nil _ _) _)

theorem fetched_compatible : Compatible ignored fetched mpyDir (mpyPmodDir (sblDir mpyDir)) := by
  have missing := fetched_package deletes fetches
  constructor
  · intro rest _ _ file
    obtain ⟨content, found⟩ := file
    rw [missing] at found
    cases found
  · intro rest _ _ dir
    rw [IsDir, missing] at dir
    cases dir

/-- Deleting the loader that was built in leaves what deleting the one before had left. -/
theorem clean_undoes_build {copied : FileTree Text Content} (free : ¬ tree.IsFile (sblDir mpyDir))
    (same : ∀ path, ¬ mpyPmodDir (sblDir mpyDir) <+: path → copied.node path = fetched.node path) (path : List Text) :
    (cmdClean git copied mpyDir args).tree.node path = (cmdClean git tree mpyDir args).tree.node path := by
  have outside (other : List Text) (other_outside : ¬ sblDir mpyDir <+: other) :
      copied.node other = (cmdClean git tree mpyDir args).tree.node other :=
    (same other fun inside => other_outside ((List.prefix_append _ _).trans inside)).trans (fetches.outside other other_outside)
  have noBuild : ¬ copied.IsDir (buildDir mpyDir) := by
    rw [IsDir, outside _ (build_not_sbl mpyDir), cmdClean_deletes deletes, rmtree_outside (build_not_sbl mpyDir)]
    exact rmtree_not_dir
  have kept : copied.rmtree (buildDir mpyDir) = copied := if_neg noBuild
  by_cases inside : sblDir mpyDir <+: path
  · have dir : copied.IsDir (sblDir mpyDir) := (same _ (package_below mpyDir)).trans fetches.there
    have before : ¬ (tree.rmtree (buildDir mpyDir)).IsFile (sblDir mpyDir) := by
      rw [IsFile, rmtree_outside (sbl_not_build mpyDir)]
      exact free
    rw [cmdClean_deletes deletes, cmdClean_deletes deletes, kept, rmtree_gone before inside,
      rmtree_gone (fun file => not_dir_of_file file dir) inside]
  · rw [← outside path inside, cmdClean_deletes deletes, kept, rmtree_outside inside]

end Fetching

/-- After any work, deleting the loader, fetching it again and preparing the payload
makes the package the payload to the last path, whatever was in any package before,
harms nothing in the payload, and is undone by deleting the loader once more. -/
theorem rebuilt_fresh (listing : Listing Text Content) (confined : CleansWithin git) (mpy : first.IsDir mpyDir)
    (worked : Worked git mpyDir first tree) (free : ¬ tree.IsFile (sblDir mpyDir)) (deletes : args.delSbl = true)
    (fetches : Fetches mpyDir (cmdClean git tree mpyDir args).tree fetched) :
    ∃ depth copied, (∀ more ≥ depth, copyPayload listing more fetched mpyDir (sblDir mpyDir) = some copied) ∧
      copied.raised = false ∧
      (∀ rest, copied.tree.node (mpyPmodDir (sblDir mpyDir) ++ rest) = offered first mpyDir rest) ∧
      (∀ rest, Kept ignored rest → copied.tree.node (mpyDir ++ rest) = first.node (mpyDir ++ rest)) ∧
      ∀ path, (cmdClean git copied.tree mpyDir args).tree.node path = (cmdClean git tree mpyDir args).tree.node path := by
  have sources {rest : List Text} (kept : Kept ignored rest) : fetched.node (mpyDir ++ rest) = first.node (mpyDir ++ rest) :=
    ((fetches.outside _ (kept_not_sbl kept)).trans (cmdClean_kept confined kept)).trans (worked_kept confined mpy worked kept)
  have top := sources (kept_nil ignored)
  rw [List.append_nil] at top
  have there : fetched.IsDir mpyDir := top.trans mpy
  obtain ⟨depth, copied, ended⟩ := copy_ends listing there fetches.there (apart_stays (own_apart mpyDir))
  have outside := copyPayload_outside there fetches.there ended
  obtain ⟨clean, result⟩ := copyPayload_merges there fetches.there (own_apart mpyDir)
    (fetched_compatible deletes fetches) ended
  refine ⟨depth, copied, fun more deeper => copyPayload_deeper deeper fetches.there ended, clean, ?_, ?_, ?_⟩
  · intro rest
    rw [result, merged_offered, fetched_package deletes fetches, Option.or_none]
    unfold offered
    by_cases kept : Kept ignored rest
    · rw [if_pos kept, if_pos kept, sources kept]
    · rw [if_neg kept, if_neg kept]
  · exact fun rest kept => (outside _ (own_apart mpyDir rest kept)).trans (sources kept)
  · exact clean_undoes_build deletes fetches free outside

/-- The loader in the payload, with the package of an earlier build. -/
def built : FileTree Text Text := ofNodes (withLoader (sblDir payloads) ++ [(mpyPmodDir (sblDir payloads), .dir),
  (mpyPmodDir (sblDir payloads) ++ ["Removed.py".toList], .file "pass".toList), (buildDir payloads, .dir)]) (by decide)

def idle : GitClean Text := fun tree _ => some tree

def deleting : CleanArgs := ⟨false, true⟩

def emptied : FileTree Text Text := (cmdClean idle built payloads deleting).tree

def refetched : FileTree Text Text := emptied.put payloads "slimbootloader".toList .dir

theorem node_refetched (path : List Text) :
    refetched.node path = if path = sblDir payloads then some .dir else emptied.node path :=
  node_put (by decide) (by decide) path

theorem refetched_fetches : Fetches payloads emptied refetched where
  there := (node_refetched _).trans (if_pos rfl)
  outside path outside := by
    rw [node_refetched, if_neg]
    rintro rfl
    exact outside List.prefix_rfl
  package rest := by
    rw [node_refetched, if_neg]
    intro same
    have inside : mpyPmodDir (sblDir payloads) <+: mpyPmodDir (sblDir payloads) ++ rest := List.prefix_append _ _
    rw [same] at inside
    exact package_below payloads inside

/-- The file that is no longer in the payload is gone, unlike in a build over the old
package. -/
theorem removed_file_gone : ∃ depth copied, copyPayload inOrder depth refetched payloads (sblDir payloads) = some copied ∧
    copied.tree.node (mpyPmodDir (sblDir payloads) ++ ["Removed.py".toList]) = none ∧
    copied.tree.node (mpyPmodDir (sblDir payloads) ++ ["BuildMicroPython.py".toList]) = some (.file "import os".toList) := by
  have confined : CleansWithin idle := ⟨fun _ _ _ _ left _ => Option.some.inj left ▸ rfl⟩
  have free : ¬ built.IsFile (sblDir payloads) := fun file => not_dir_of_file file (by decide)
  obtain ⟨depth, copied, ended, _, package, _⟩ :=
    rebuilt_fresh inOrder confined (by decide) .start free (rfl : deleting.delSbl = true) refetched_fetches
  exact ⟨depth, copied, ended depth le_rfl, (package _).trans (by decide), (package _).trans (by decide)⟩

end SblPayload.Proofs.CleanBuild
