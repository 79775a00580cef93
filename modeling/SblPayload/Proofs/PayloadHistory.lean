import SblPayload.Proofs.PayloadMirror

/-! The package over many builds, while the payload changes. Between two copies anything
may happen, to the payload and in the package: a place of the package is followed for
as long as only the copies touch it. -/

namespace SblPayload.Proofs.PayloadHistory
open Library FileTree CopyTree PayloadCopy CopyEnds PayloadMirror

variable {Content : Type} {mpyDir sblDir rest : List Text} {first last : FileTree Text Content}

/-- What the payload has for a place in the package. -/
def offered (tree : FileTree Text Content) (mpyDir rest : List Text) : Option (Node Content) :=
  if Kept ignored rest then tree.node (mpyDir ++ rest) else none

theorem merged_offered (tree : FileTree Text Content) (mpyDir target rest : List Text) :
    merged ignored tree mpyDir target rest = (offered tree mpyDir rest).or (tree.node (target ++ rest)) := by
  unfold offered
  by_cases kept : Kept ignored rest
  · rw [if_pos kept]
    cases found : tree.node (mpyDir ++ rest) with
    | none => exact merged_absent found
    | some new => exact merged_present kept found
  · rw [if_neg kept]
    exact if_neg fun both => kept both.1

/-- One place of the package, through the copies of the payload and whatever else
happens, with what each copy had for it, the newest first. -/
inductive History (mpyDir sblDir rest : List Text) (first : FileTree Text Content) :
    List (Option (Node Content)) → FileTree Text Content → Prop where
  | start : History mpyDir sblDir rest first [] first
  | meanwhile {offers tree after} (earlier : History mpyDir sblDir rest first offers tree)
      (kept : after.node (mpyPmodDir sblDir ++ rest) = tree.node (mpyPmodDir sblDir ++ rest)) :
      History mpyDir sblDir rest first offers after
  | prepared {offers tree listing depth copied} (earlier : History mpyDir sblDir rest first offers tree)
      (mpy : tree.IsDir mpyDir) (sbl : tree.IsDir sblDir) (compatible : Compatible ignored tree mpyDir (mpyPmodDir sblDir))
      (ended : copyPayload listing depth tree mpyDir sblDir = some copied) :
      History mpyDir sblDir rest first (offered tree mpyDir rest :: offers) copied.tree

/-- The place holds what the last payload that had anything for it had, however many
were copied since: what is taken out of the payload is never taken out of the package. -/
theorem newest_offer_stays {offers : List (Option (Node Content))} (apart : Apart ignored mpyDir (mpyPmodDir sblDir))
    (history : History mpyDir sblDir rest first offers last) :
    last.node (mpyPmodDir sblDir ++ rest) = (offers.findSome? id).or (first.node (mpyPmodDir sblDir ++ rest)) := by
  induction history with
  | start => rfl
  | meanwhile earlier kept ih => exact kept.trans ih
  | @prepared offers tree listing depth copied earlier mpy sbl compatible ended ih =>
    obtain ⟨_, result⟩ := copyPayload_merges mpy sbl apart compatible ended
    rw [result, merged_offered, ih, List.findSome?_cons]
    cases offered tree mpyDir rest with
    | none => rfl
    | some new => rfl

/-- One build over the stale package. -/
theorem removed_file_stays : ∃ offers last, History payloads ["sbl".toList] ["Removed.py".toList] stale offers last ∧
    offers.length = 1 ∧ last.node (mpyPmodDir ["sbl".toList] ++ ["Removed.py".toList]) = some (.file "pass".toList) := by
  have mpy : stale.IsDir payloads := by decide
  have sbl : stale.IsDir ["sbl".toList] := by decide
  obtain ⟨depth, copied, ended⟩ := copy_ends inOrder mpy sbl (apart_stays stale_apart)
  have history : History payloads ["sbl".toList] ["Removed.py".toList] stale _ copied.tree :=
    .prepared .start mpy sbl stale_compatible ended
  exact ⟨_, _, history, rfl, (newest_offer_stays stale_apart history).trans (by decide)⟩

end SblPayload.Proofs.PayloadHistory
