import Mathlib.Data.List.Basic

/-! Calls with what is answered to them, when an answer may depend on every call made
before. -/

namespace SblPayload.Library

variable {Call Reply : Type} (answer : List Call → Option Reply)

def transcriptFrom (earlier : List Call) : List Call → List (Call × Option Reply)
  | [] => []
  | call :: later => (call, answer (earlier ++ [call])) :: transcriptFrom (earlier ++ [call]) later

def transcript (calls : List Call) : List (Call × Option Reply) := transcriptFrom answer [] calls

theorem transcriptFrom_append (earlier front later : List Call) :
    transcriptFrom answer earlier (front ++ later) =
      transcriptFrom answer earlier front ++ transcriptFrom answer (earlier ++ front) later := by
  induction front generalizing earlier with
  | nil => rw [List.append_nil]; rfl
  | cons call front ih =>
    change _ :: transcriptFrom answer (earlier ++ [call]) (front ++ later) = _ :: _ ++ _
    rw [ih, List.append_assoc]
    rfl

/-- The last call is answered with all the others made. -/
theorem transcript_snoc (calls : List Call) (call : Call) :
    transcript answer (calls ++ [call]) = transcript answer calls ++ [(call, answer (calls ++ [call]))] := by
  unfold transcript
  rw [transcriptFrom_append, List.nil_append]
  rfl

end SblPayload.Library
