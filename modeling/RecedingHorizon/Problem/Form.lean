import RecedingHorizon.Json.Decode
import RecedingHorizon.Json.Parse
import RecedingHorizon.Problem.Validate

/-!
The JSON form of a problem, and the files that hold it. Every part has a pair of functions, one that
writes it and one that reads it; both take the form of a scalar as their first argument. A file holds
the indented form, and whatever is read from one is validated before it is handed out.
-/

namespace RecedingHorizon

open Json (record required optional)

/-- The form of a vector: its entries, their number, and a null for the one column. -/
def vectorForm {α : Type} (real : α → Json) (v : List α) : Json :=
  .array [.ofList real v, .ofNat v.length, .null]

def vectorOfForm? {α : Type} (real : Json → Option α) : Json → Option (List α)
  | .array [entries, length, .null] => do
    let entries ← entries.toList? real
    let length ← length.toSize?
    if entries.length = length then some entries else none
  | _ => none

namespace Matrix

/-- The entries, column after column, and the two dimensions. -/
def form {α : Type} (real : α → Json) (m : Matrix α) : Json :=
  .array [.ofList real m.entries, .ofNat m.rows, .ofNat m.cols]

def ofForm? {α : Type} (real : Json → Option α) : Json → Option (Matrix α)
  | .array [entries, rows, cols] => do
    let entries ← entries.toList? real
    let rows ← rows.toSize?
    let cols ← cols.toSize?
    ofEntries? rows cols entries
  | _ => none

end Matrix

namespace Signal

def form : Signal → Json
  | .state index => record [("state", .ofNat index)]
  | .input index => record [("input", .ofNat index)]

def ofForm? : Json → Option Signal
  | .object [(name, index)] => do
    let name ← Json.Quoted.decode? name
    let index ← index.toSize?
    if name = "state" then some (.state index)
    else if name = "input" then some (.input index)
    else none
  | _ => none

end Signal

namespace Residual

def form (r : Residual) : Json :=
  record [("symbol", r.signal.form), ("reference", .ofOption .ofNat r.target)]

def ofForm? (j : Json) : Option Residual := do
  match ← j.fields? ["symbol", "reference"] with
  | [signal, target] =>
    pure { signal := ← required Signal.ofForm? signal, target := ← optional Json.toSize? target }
  | _ => none

end Residual

namespace CostMap

def form (m : CostMap) : Json := record [("residuals", .ofList Residual.form m.residuals)]

def ofForm? (j : Json) : Option CostMap := do
  match ← j.fields? ["residuals"] with
  | [residuals] => pure ⟨← required (Json.toList? Residual.ofForm?) residuals⟩
  | _ => none

end CostMap

namespace Profile

def form {α : Type} (real : α → Json) (p : Profile α) : Json :=
  record [("segments", .ofList (vectorForm real) p.segments)]

def ofForm? {α : Type} (real : Json → Option α) (j : Json) : Option (Profile α) := do
  match ← j.fields? ["segments"] with
  | [segments] => pure ⟨← required (Json.toList? (vectorOfForm? real)) segments⟩
  | _ => none

end Profile

namespace Binding

def form {α : Type} (real : α → Json) (b : Binding α) : Json :=
  record [("profile", b.profile.form real), ("selector", .ofNat b.selector)]

def ofForm? {α : Type} (real : Json → Option α) (j : Json) : Option (Binding α) := do
  match ← j.fields? ["profile", "selector"] with
  | [profile, selector] =>
    pure {
      profile := ← required (Profile.ofForm? real) profile
      selector := ← required Json.toSize? selector }
  | _ => none

end Binding

/-- The document of a choice among names. -/
def choiceForm {β : Type} [DecidableEq β] (choices : List (String × β)) (value : β) : Json :=
  .ofOption .ofString ((choices.find? fun choice => choice.2 = value).map Prod.fst)

def QpSolver.names : List (String × QpSolver) :=
  [("PARTIAL_CONDENSING_HPIPM", .partialCondensingHpipm),
   ("FULL_CONDENSING_HPIPM", .fullCondensingHpipm),
   ("FULL_CONDENSING_QPOASES", .fullCondensingQpoases),
   ("PARTIAL_CONDENSING_QPDUNES", .partialCondensingQpdunes),
   ("PARTIAL_CONDENSING_OSQP", .partialCondensingOsqp)]

def HessianApproximation.names : List (String × HessianApproximation) :=
  [("GAUSS_NEWTON", .gaussNewton), ("EXACT", .exact)]

def NlpSolver.names : List (String × NlpSolver) := [("SQP", .sqp), ("SQP_RTI", .sqpRealTime)]

def CostDiscretization.names : List (String × CostDiscretization) :=
  [("EULER", .euler), ("INTEGRATOR", .integrator)]

def CostKind.names : List (String × CostKind) := [("NONLINEAR_LS", .nonlinearLeastSquares)]

namespace Integrator

/-- The type of an integrator comes first, and then what this type needs. -/
def form : Integrator → Json
  | .discrete => record [("type", .ofString "DISCRETE")]
  | .implicitRungeKutta stages steps =>
    record [("type", .ofString "IRK"), ("stages", .ofNat stages), ("steps", .ofNat steps)]

/-- Brackets that may be open at once inside an integrator, two more being open around it. -/
def deepest : Nat := 125

/-- The rest of an integrator of type `DISCRETE` is not looked at, but for a list, which is as long
as its fields. -/
def ofTyped? (type : String) (rest : Json) : Option Integrator :=
  if type = "DISCRETE" then
    match rest with
    | .array (_ :: _) => none
    | _ => some .discrete
  else if type = "IRK" then do
    match ← rest.fields? ["stages", "steps"] with
    | [stages, steps] =>
      pure (.implicitRungeKutta (← required Json.toSize? stages) (← required Json.toSize? steps))
    | _ => none
  else none

/-- The type may stand anywhere in an object, but once. -/
def ofForm? (j : Json) : Option Integrator :=
  if j.isReadable deepest then
    match j with
    | .object members => do
      let names ← Json.decodeNames members
      let type ← (← Json.field? names "type").bind Json.toString?
      ofTyped? type (.object (members.filter fun member => Json.Quoted.decode? member.1 ≠ "type"))
    | .array (type :: rest) => do
      let type ← type.toString?
      ofTyped? type (.array rest)
    | _ => none
  else none

end Integrator

namespace SolverOptions

def form {α : Type} (real : α → Json) (o : SolverOptions α) : Json :=
  record [
    ("n_horizon", .ofNat o.intervals),
    ("tf", real o.horizon),
    ("integrator", o.integrator.form),
    ("qp_solver", choiceForm QpSolver.names o.qpSolver),
    ("qp_solver_cond_n", .ofNat o.condensedIntervals),
    ("hessian_approx", choiceForm HessianApproximation.names o.hessian),
    ("levenberg_marquardt", real o.levenbergMarquardt),
    ("nlp_solver_type", choiceForm NlpSolver.names o.nlpSolver),
    ("nlp_max_iter", .ofNat o.maxIterations),
    ("tol", real o.tolerance),
    ("cost_discretization", choiceForm CostDiscretization.names o.costDiscretization)]

def ofForm? {α : Type} (real : Json → Option α) (j : Json) : Option (SolverOptions α) := do
  match ← j.fields? ["n_horizon", "tf", "integrator", "qp_solver", "qp_solver_cond_n",
    "hessian_approx", "levenberg_marquardt", "nlp_solver_type", "nlp_max_iter", "tol",
    "cost_discretization"] with
  | [intervals, horizon, integrator, qpSolver, condensedIntervals, hessian, levenbergMarquardt,
      nlpSolver, maxIterations, tolerance, costDiscretization] =>
    pure {
      intervals := ← required Json.toSize? intervals
      horizon := ← required real horizon
      integrator := ← required Integrator.ofForm? integrator
      qpSolver := ← required (Json.choice? QpSolver.names) qpSolver
      condensedIntervals := ← required Json.toSize? condensedIntervals
      hessian := ← required (Json.choice? HessianApproximation.names) hessian
      levenbergMarquardt := ← required real levenbergMarquardt
      nlpSolver := ← required (Json.choice? NlpSolver.names) nlpSolver
      maxIterations := ← required Json.toSize? maxIterations
      tolerance := ← required real tolerance
      costDiscretization := ← required (Json.choice? CostDiscretization.names) costDiscretization }
  | _ => none

end SolverOptions

namespace Dimensions

def form (d : Dimensions) : Json :=
  record [
    ("nx", .ofNat d.states),
    ("nu", .ofNat d.inputs),
    ("np", .ofNat d.parameters),
    ("ny", .ofNat d.stageResiduals),
    ("ny_e", .ofNat d.terminalResiduals),
    ("nbu", .ofNat d.boundedInputs),
    ("n", .ofNat d.intervals)]

def ofForm? (j : Json) : Option Dimensions := do
  match ← j.fields? ["nx", "nu", "np", "ny", "ny_e", "nbu", "n"] with
  | [states, inputs, parameters, stageResiduals, terminalResiduals, boundedInputs, intervals] =>
    pure {
      states := ← required Json.toSize? states
      inputs := ← required Json.toSize? inputs
      parameters := ← required Json.toSize? parameters
      stageResiduals := ← required Json.toSize? stageResiduals
      terminalResiduals := ← required Json.toSize? terminalResiduals
      boundedInputs := ← required Json.toSize? boundedInputs
      intervals := ← required Json.toSize? intervals }
  | _ => none

end Dimensions

namespace Cost

def form {α : Type} (real : α → Json) (c : Cost α) : Json :=
  record [
    ("cost_type", choiceForm CostKind.names c.stageKind),
    ("cost_type_e", choiceForm CostKind.names c.terminalKind),
    ("y_expr", c.stageMap.form),
    ("y_expr_e", c.terminalMap.form),
    ("w", c.stageWeight.form real),
    ("w_e", c.terminalWeight.form real),
    ("yref", vectorForm real c.stageTarget),
    ("yref_e", vectorForm real c.terminalTarget)]

def ofForm? {α : Type} (real : Json → Option α) (j : Json) : Option (Cost α) := do
  match ← j.fields? ["cost_type", "cost_type_e", "y_expr", "y_expr_e", "w", "w_e", "yref",
    "yref_e"] with
  | [stageKind, terminalKind, stageMap, terminalMap, stageWeight, terminalWeight, stageTarget,
      terminalTarget] =>
    pure {
      stageKind := ← required (Json.choice? CostKind.names) stageKind
      terminalKind := ← required (Json.choice? CostKind.names) terminalKind
      stageMap := ← required CostMap.ofForm? stageMap
      terminalMap := ← required CostMap.ofForm? terminalMap
      stageWeight := ← required (Matrix.ofForm? real) stageWeight
      terminalWeight := ← required (Matrix.ofForm? real) terminalWeight
      stageTarget := ← required (vectorOfForm? real) stageTarget
      terminalTarget := ← required (vectorOfForm? real) terminalTarget }
  | _ => none

end Cost

namespace Constraints

def form {α : Type} (real : α → Json) (c : Constraints α) : Json :=
  record [
    ("lbu", vectorForm real c.lowerBounds),
    ("ubu", vectorForm real c.upperBounds),
    ("idxbu", .ofList .ofNat c.boundedInputs),
    ("x0", .ofOption (vectorForm real) c.initialState)]

def ofForm? {α : Type} (real : Json → Option α) (j : Json) : Option (Constraints α) := do
  match ← j.fields? ["lbu", "ubu", "idxbu", "x0"] with
  | [lowerBounds, upperBounds, boundedInputs, initialState] =>
    pure {
      lowerBounds := ← required (vectorOfForm? real) lowerBounds
      upperBounds := ← required (vectorOfForm? real) upperBounds
      boundedInputs := ← required (Json.toList? Json.toSize?) boundedInputs
      initialState := ← optional (vectorOfForm? real) initialState }
  | _ => none

end Constraints

namespace Problem

def form {α : Type} (real : α → Json) (p : Problem α) : Json :=
  record [
    ("model_name", .ofString p.model),
    ("dims", p.dimensions.form),
    ("cost", p.cost.form real),
    ("constraints", p.constraints.form real),
    ("parameter_values", vectorForm real p.parameters),
    ("reference", .ofOption (Binding.form real) p.reference),
    ("options", p.options.form real)]

def ofForm? {α : Type} (real : Json → Option α) (j : Json) : Option (Problem α) := do
  match ← j.fields? ["model_name", "dims", "cost", "constraints", "parameter_values", "reference",
    "options"] with
  | [model, dimensions, cost, constraints, parameters, reference, options] =>
    pure {
      model := ← required Json.toString? model
      dimensions := ← required Dimensions.ofForm? dimensions
      cost := ← required (Cost.ofForm? real) cost
      constraints := ← required (Constraints.ofForm? real) constraints
      parameters := ← required (vectorOfForm? real) parameters
      reference := ← optional (Binding.ofForm? real) reference
      options := ← required (SolverOptions.ofForm? real) options }
  | _ => none

end Problem

/-! ### Files -/

/-- What a path leads to. -/
inductive Place where
  /-- Not even the directory is there. -/
  | nowhere
  /-- The directory is there, but no file. -/
  | vacant
  | directory
  | file (content : Bytes)

namespace Problem

def encode (p : Problem Float) : Bytes := (p.form Json.ofFloat).render .indented

/-- The problem that a file holds, valid or not. -/
def decode? (content : Bytes) : Option (Problem Float) := do
  let j ← Json.parse? content
  ofForm? Json.toFloat? j

/-- Writing replaces what a file held before. -/
def write (p : Problem Float) : Place → Except (ProblemError Float) Place
  | .nowhere | .directory => .error .file
  | .vacant | .file _ => .ok (.file p.encode)

/-- A directory can be opened like a file, but holds no problem. -/
def read [Spectral Float] : Place → Except (ProblemError Float) (Problem Float)
  | .nowhere | .vacant => .error .file
  | .directory => .error .format
  | .file content =>
    match decode? content with
    | none => .error .format
    | some p => do
      p.validate.mapError .validation
      pure p

end Problem

end RecedingHorizon
