import SblPayload.Library.CopyMerge
import SblPayload.Proofs.CopyEnds

/-! What preparing the payload leaves in the tree of the loader, to the last path: the
payload laid over the package that was there. What is no longer in the payload stays. -/

namespace SblPayload.Proofs.PayloadMirror
open Library FileTree CopyTree PayloadCopy CopyEnds

variable {Content : Type} {listing : Listing Text Content} {tree made : FileTree Text Content}
  {mpyDir sblDir rest : List Text}

/-- A destination that is not part of what is copied is not on a way that never ends. -/
theorem apart_stays (apart : Apart ignored mpyDir (mpyPmodDir sblDir)) : ¬ Descends tree mpyDir sblDir := by
  rintro ⟨below, _, inside, wanted, _⟩
  have kept : Kept ignored (mpyPmodDir below) := by
    intro name member
    rcases List.mem_append.mp member with inner | last
    · exact wanted name inner
    · exact List.mem_singleton.mp last ▸ ignored_payloadModPkg
  have here : mpyPmodDir sblDir = mpyDir ++ mpyPmodDir below := by
    rw [inside]
    exact List.append_assoc _ _ _
  exact apart _ kept (here ▸ List.prefix_rfl)

section Making
variable (prepared : Prepared tree (mpyPmodDir sblDir) made) (mpy : tree.IsDir mpyDir)
include prepared

theorem prepared_sources (apart : Apart ignored mpyDir (mpyPmodDir sblDir)) (rest : List Text) (kept : Kept ignored rest) :
    made.node (mpyDir ++ rest) = tree.node (mpyDir ++ rest) :=
  prepared.same _ fun same => apart rest kept (same ▸ List.prefix_rfl)

theorem prepared_target (below : rest ≠ []) : made.node (mpyPmodDir sblDir ++ rest) = tree.node (mpyPmodDir sblDir ++ rest) :=
  prepared.same _ fun same => below (List.append_right_eq_self.mp same)

include mpy

theorem prepared_merged (apart : Apart ignored mpyDir (mpyPmodDir sblDir)) (rest : List Text) :
    merged ignored made mpyDir (mpyPmodDir sblDir) rest = merged ignored tree mpyDir (mpyPmodDir sblDir) rest := by
  have sources := prepared_sources prepared apart
  by_cases below : rest = []
  · have there : tree.node (mpyDir ++ rest) = some .dir := by
      rw [below, List.append_nil]
      exact mpy
    have kept : Kept ignored rest := below ▸ kept_nil ignored
    rw [merged_present kept there, merged_present kept ((sources rest kept).trans there)]
  · exact merged_congr sources (prepared_target prepared below)

theorem prepared_compatible (apart : Apart ignored mpyDir (mpyPmodDir sblDir))
    (compatible : Compatible ignored tree mpyDir (mpyPmodDir sblDir)) :
    Compatible ignored made mpyDir (mpyPmodDir sblDir) := by
  have sources := prepared_sources prepared apart
  constructor
  · intro rest kept dir
    rw [prepared.isFile_iff]
    exact compatible.dirs rest kept ((sources rest kept).symm.trans dir)
  · intro rest kept file
    have file := (prepared.isFile_iff _).mp file
    have below : rest ≠ [] := by
      intro empty
      rw [empty, List.append_nil] at file
      exact not_dir_of_file file mpy
    rw [IsDir, prepared_target prepared below]
    exact compatible.files rest kept file

end Making

/-- What is outside the package is not touched. -/
theorem copyPayload_outside {depth : Nat} {copied : Copied Text Content} (mpy : tree.IsDir mpyDir)
    (sbl : tree.IsDir sblDir) (ended : copyPayload listing depth tree mpyDir sblDir = some copied) (path : List Text)
    (outside : ¬ mpyPmodDir sblDir <+: path) : copied.tree.node path = tree.node path := by
  obtain ⟨made, prepared, run⟩ := copyPayload_prepares listing mpyDir sbl
  have same : made.node path = tree.node path := prepared.same path fun here => outside (here ▸ List.prefix_rfl)
  rw [run] at ended
  split at ended
  · cases ended
    exact same
  · have grown := copytree_grows (prepared.dir mpy) (prepared.ready sbl) ended
    exact (grown.outside path outside).trans same

theorem copyPayload_merges {depth : Nat} {copied : Copied Text Content} (mpy : tree.IsDir mpyDir)
    (sbl : tree.IsDir sblDir) (apart : Apart ignored mpyDir (mpyPmodDir sblDir))
    (compatible : Compatible ignored tree mpyDir (mpyPmodDir sblDir))
    (ended : copyPayload listing depth tree mpyDir sblDir = some copied) : copied.raised = false ∧
      ∀ rest, copied.tree.node (mpyPmodDir sblDir ++ rest) = merged ignored tree mpyDir (mpyPmodDir sblDir) rest := by
  obtain ⟨made, prepared, run⟩ := copyPayload_prepares listing mpyDir sbl
  rw [run, if_neg apart.distinct.symm] at ended
  obtain ⟨clean, result⟩ := copytree_merges (prepared.dir mpy) (prepared.ready sbl) apart
    (prepared_compatible prepared mpy apart compatible) ended
  exact ⟨clean, fun rest => (result rest).trans (prepared_merged prepared mpy apart rest)⟩

/-- A result that is the payload laid over the package meets no other kind. -/
theorem compatible_of_merged {depth : Nat} {copied : Copied Text Content} (mpy : tree.IsDir mpyDir)
    (sbl : tree.IsDir sblDir) (ended : copyPayload listing depth tree mpyDir sblDir = some copied)
    (result : ∀ rest, copied.tree.node (mpyPmodDir sblDir ++ rest) = merged ignored tree mpyDir (mpyPmodDir sblDir) rest) :
    Compatible ignored tree mpyDir (mpyPmodDir sblDir) := by
  have kinds := copied_kinds mpy sbl ended
  constructor
  · intro rest kept dir file
    exact not_dir_of_file ((kinds _).2 file) ((result rest).trans (merged_present kept dir))
  · intro rest kept file dir
    obtain ⟨content, found⟩ := file
    exact not_dir_of_file ⟨content, (result rest).trans (merged_present kept found)⟩ ((kinds _).1 dir)

/-- The copy ends, changes nothing outside the package, and leaves there, without an
exception, the payload laid over what was there exactly when no file meets a
directory. -/
theorem payload_mirrored_iff (listing : Listing Text Content) (tree : FileTree Text Content) (mpyDir sblDir : List Text)
    (mpy : tree.IsDir mpyDir) (sbl : tree.IsDir sblDir) (apart : Apart ignored mpyDir (mpyPmodDir sblDir)) :
    ∃ depth copied, (∀ more ≥ depth, copyPayload listing more tree mpyDir sblDir = some copied) ∧
      (∀ path, ¬ mpyPmodDir sblDir <+: path → copied.tree.node path = tree.node path) ∧
      ((copied.raised = false ∧ ∀ rest, copied.tree.node (mpyPmodDir sblDir ++ rest) =
          merged ignored tree mpyDir (mpyPmodDir sblDir) rest) ↔
        Compatible ignored tree mpyDir (mpyPmodDir sblDir)) := by
  obtain ⟨depth, copied, ended⟩ := copy_ends listing mpy sbl (apart_stays apart)
  refine ⟨depth, copied, fun more deeper => copyPayload_deeper deeper sbl ended, copyPayload_outside mpy sbl ended, ?_⟩
  constructor
  · exact fun result => compatible_of_merged mpy sbl ended result.2
  · exact fun compatible => copyPayload_merges mpy sbl apart compatible ended

/-- A package from before, with a file that is not in the payload any more and an old
text of one that is. -/
def stale : FileTree Text Text := ofNodes (([], .dir) :: (payloads, .dir) :: script :: inf ++
  [(["sbl".toList], .dir), (mpyPmodDir ["sbl".toList], .dir),
    (mpyPmodDir ["sbl".toList] ++ ["BuildMicroPython.py".toList], .file "import sys".toList),
    (mpyPmodDir ["sbl".toList] ++ ["Removed.py".toList], .file "pass".toList)]) (by decide)

theorem stale_apart : Apart ignored payloads (mpyPmodDir ["sbl".toList]) := by
  intro rest _ inside
  have front := List.cons_prefix_cons.mp inside
  exact absurd front.1 (by decide)

theorem stale_compatible : Compatible ignored stale payloads (mpyPmodDir ["sbl".toList]) := by
  have noClash : ∀ entry ∈ stale.nodes, ∀ other ∈ stale.nodes, entry.1.take 1 = payloads →
      other.1 = mpyPmodDir ["sbl".toList] ++ entry.1.drop 1 → (entry.2 = .dir ↔ other.2 = .dir) := by decide
  have agree (rest : List Text) {new old : Node Text} (found : stale.node (payloads ++ rest) = some new)
      (there : stale.node (mpyPmodDir ["sbl".toList] ++ rest) = some old) : new = .dir ↔ old = .dir :=
    noClash _ (mem_nodes found) _ (mem_nodes there) rfl rfl
  constructor
  · intro rest _ dir file
    obtain ⟨content, found⟩ := file
    cases (agree rest dir found).mp rfl
  · intro rest _ file dir
    obtain ⟨content, found⟩ := file
    cases (agree rest found dir).mpr rfl

/-- The new text takes the place of the old one, and the removed file is still there. -/
theorem stale_mirrored : ∃ depth copied, copyPayload inOrder depth stale payloads ["sbl".toList] = some copied ∧
    copied.tree.node (mpyPmodDir ["sbl".toList] ++ ["BuildMicroPython.py".toList]) = some (.file "import os".toList) ∧
    copied.tree.node (mpyPmodDir ["sbl".toList] ++ ["Removed.py".toList]) = some (.file "pass".toList) := by
  obtain ⟨depth, copied, settled, _, mirrored⟩ :=
    payload_mirrored_iff inOrder stale payloads ["sbl".toList] (by decide) (by decide) stale_apart
  obtain ⟨_, result⟩ := mirrored.mpr stale_compatible
  exact ⟨depth, copied, settled depth le_rfl, (result _).trans (by decide), (result _).trans (by decide)⟩

/-- Nothing of a copy that was made meets another kind. -/
theorem compatible_again {copied : FileTree Text Content}
    (sources : ∀ rest, Kept ignored rest → copied.node (mpyDir ++ rest) = tree.node (mpyDir ++ rest))
    (result : ∀ rest, copied.node (mpyPmodDir sblDir ++ rest) = merged ignored tree mpyDir (mpyPmodDir sblDir) rest) :
    Compatible ignored copied mpyDir (mpyPmodDir sblDir) := by
  have same (rest : List Text) (kept : Kept ignored rest) {new : Node Content}
      (there : copied.node (mpyDir ++ rest) = some new) : copied.node (mpyPmodDir sblDir ++ rest) = some new :=
    (result rest).trans (merged_present kept ((sources rest kept).symm.trans there))
  constructor
  · exact fun rest kept dir file => not_dir_of_file file (same rest kept dir)
  · intro rest kept file
    obtain ⟨content, found⟩ := file
    exact not_dir_of_file ⟨content, same rest kept found⟩

/-- The payload laid over itself. -/
theorem merged_again {copied : FileTree Text Content}
    (sources : ∀ rest, Kept ignored rest → copied.node (mpyDir ++ rest) = tree.node (mpyDir ++ rest))
    (result : ∀ rest, copied.node (mpyPmodDir sblDir ++ rest) = merged ignored tree mpyDir (mpyPmodDir sblDir) rest)
    (rest : List Text) :
    merged ignored copied mpyDir (mpyPmodDir sblDir) rest = copied.node (mpyPmodDir sblDir ++ rest) := by
  by_cases covered : Kept ignored rest ∧ (copied.node (mpyDir ++ rest)).isSome
  · obtain ⟨kept, there⟩ := covered
    obtain ⟨new, found⟩ := Option.isSome_iff_exists.mp there
    rw [merged_present kept found, result, merged_present kept ((sources rest kept).symm.trans found)]
  · exact if_neg covered

/-- Preparing the payload once more, with nothing changed in between, changes nothing
in the whole tree. -/
theorem mirrored_again (listing : Listing Text Content) (tree : FileTree Text Content) (mpyDir sblDir : List Text)
    (mpy : tree.IsDir mpyDir) (sbl : tree.IsDir sblDir) (apart : Apart ignored mpyDir (mpyPmodDir sblDir))
    (compatible : Compatible ignored tree mpyDir (mpyPmodDir sblDir)) :
    ∃ depth copied again, (∀ more ≥ depth, copyPayload listing more tree mpyDir sblDir = some copied ∧
        copyPayload listing more copied.tree mpyDir sblDir = some again) ∧
      again.raised = false ∧ ∀ path, again.tree.node path = copied.tree.node path := by
  obtain ⟨first, copied, ended⟩ := copy_ends listing mpy sbl (apart_stays apart)
  have kept := fun path => (copied_kinds mpy sbl ended path).1
  obtain ⟨second, again, endedAgain⟩ := copy_ends listing (kept mpyDir mpy) (kept sblDir sbl) (apart_stays apart)
  obtain ⟨_, result⟩ := copyPayload_merges mpy sbl apart compatible ended
  have sources (rest : List Text) (wanted : Kept ignored rest) :
      copied.tree.node (mpyDir ++ rest) = tree.node (mpyDir ++ rest) :=
    copyPayload_outside mpy sbl ended _ (apart rest wanted)
  obtain ⟨clean, resultAgain⟩ := copyPayload_merges (kept mpyDir mpy) (kept sblDir sbl) apart
    (compatible_again sources result) endedAgain
  refine ⟨max first second, copied, again, ?_, clean, ?_⟩
  · intro more deeper
    exact ⟨copyPayload_deeper ((le_max_left _ _).trans deeper) sbl ended,
      copyPayload_deeper ((le_max_right _ _).trans deeper) (kept sblDir sbl) endedAgain⟩
  · intro path
    by_cases inside : mpyPmodDir sblDir <+: path
    · obtain ⟨rest, rfl⟩ := inside
      exact (resultAgain rest).trans (merged_again sources result rest)
    · exact copyPayload_outside (kept mpyDir mpy) (kept sblDir sbl) endedAgain path inside

theorem stale_mirrored_again : ∃ depth copied again,
    (∀ more ≥ depth, copyPayload inOrder more stale payloads ["sbl".toList] = some copied ∧
      copyPayload inOrder more copied.tree payloads ["sbl".toList] = some again) ∧
    again.raised = false ∧ ∀ path, again.tree.node path = copied.tree.node path :=
  mirrored_again inOrder stale payloads ["sbl".toList] (by decide) (by decide) stale_apart stale_compatible

end SblPayload.Proofs.PayloadMirror
