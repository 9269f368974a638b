import RecedingHorizon.Cache
import RecedingHorizon.Decimal.ReadBack
import RecedingHorizon.Json.Parse
import RecedingHorizon.Problem.Evaluate
import RecedingHorizon.Problem.Form
import RecedingHorizon.Reactor
import RecedingHorizon.Proofs.Binary64.Word
import RecedingHorizon.Proofs.Json.Numeral
import RecedingHorizon.Proofs.Json.Parse
import RecedingHorizon.Proofs.Json.Codec
import RecedingHorizon.Proofs.Problem.Content
import RecedingHorizon.Proofs.Problem.Form
import RecedingHorizon.Proofs.Problem.File
import RecedingHorizon.Proofs.Check
import RecedingHorizon.Proofs.Problem.Validate
import RecedingHorizon.Proofs.Problem.Evaluate
import RecedingHorizon.Proofs.Handle.Call
import RecedingHorizon.Proofs.Handle.Store
import RecedingHorizon.Proofs.Problem.Key
import RecedingHorizon.Proofs.Problem.Build
import RecedingHorizon.Proofs.Cache.Transparency
import RecedingHorizon.Proofs.Cache.Sharing
import RecedingHorizon.Proofs.Handle.Finite
import RecedingHorizon.Proofs.Eigenvalue
import RecedingHorizon.Proofs.Weight
import RecedingHorizon.Proofs.Design
import RecedingHorizon.Proofs.Problem.Assemble
import RecedingHorizon.Proofs.Binary64.Value
import RecedingHorizon.Proofs.Problem.Recentre
import RecedingHorizon.Proofs.Binary64.Sign
import RecedingHorizon.Proofs.Matrix
import RecedingHorizon.Proofs.Exact
import RecedingHorizon.Proofs.Problem.NormalizedCost
import RecedingHorizon.Proofs.Cache.Queries
import RecedingHorizon.Proofs.Cache.CompileOnce
import RecedingHorizon.Proofs.Cache.Interleaving
import RecedingHorizon.Proofs.Cache.Shape
import RecedingHorizon.Proofs.Handle.Cycles
import RecedingHorizon.Proofs.Handle.Selector
import RecedingHorizon.Proofs.Problem.Configured
import RecedingHorizon.Proofs.Problem.Defined
import RecedingHorizon.Proofs.Design.Refusal
import RecedingHorizon.Proofs.Binary64.Rounding
import RecedingHorizon.Proofs.Binary64.Nearest
import RecedingHorizon.Proofs.Binary64.Range
import RecedingHorizon.Proofs.Design.Range
import RecedingHorizon.Proofs.Exact.Spectrum
import RecedingHorizon.Proofs.Exact.Semidefinite
import RecedingHorizon.Proofs.Problem.CostBound
import RecedingHorizon.Proofs.CostMap
import RecedingHorizon.Proofs.Problem.Acceptance
import RecedingHorizon.Proofs.Binary64.Order
import RecedingHorizon.Proofs.Binary64.Floor
import RecedingHorizon.Proofs.Selection
import RecedingHorizon.Proofs.Matrix.Blocks
import RecedingHorizon.Proofs.Weight.Location
