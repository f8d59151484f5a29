import ContextResidency.Scalar
import ContextResidency.Library.Greedy

/-! The trace schema: what a gateway or an agent transcript can report. -/
namespace ContextResidency

/-- One model call: what was sent, what came back, and when it happened. -/
structure Turn (F : Type) where
  t : F
  sessionId : String
  role : String
  promptTokens : ℤ
  completionTokens : ℤ
  sharedPrefixTokens : ℤ := 0
  toolEtaS : Option F := none
  aborted : Bool := false
  sloClass : String := "interactive"

/-- `sorted(turns, key=lambda t: t.t)`. -/
def inOrder {F : Type} [Scalar F] (turns : List (Turn F)) : List (Turn F) := sortedBy (·.t) turns

end ContextResidency
