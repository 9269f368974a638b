import RecedingHorizon.Notice
import RecedingHorizon.Problem.Validate

/-!
Compiled solvers and the handles on them. The engine that generates solvers has a state of its own,
which every call may read and change; it compiles a problem to an artifact, which holds nothing of a
control loop and can be shared. A handle joins an artifact and the runtime state of one control loop:
the measured state, the runtime parameters and the targets of the stages. A setter makes all its
checks before it writes. A solve counts a cycle and tells the monitor only if the engine gave an
action of the right length.
-/

namespace RecedingHorizon

/-! ### Engines -/

/-- What a compiled solver is given on every call. -/
structure SolveInput (α : Type) where
  initialState : List α
  parameters : List α
  /-- Least-squares targets of the stages, the terminal one last. -/
  targets : List (List α)
  deriving DecidableEq

structure EngineOutput (α : Type) where
  /-- The first control action of the optimal trajectory. -/
  action : List α
  exit : ExitStatus
  iterations : Nat
  deriving DecidableEq

/-- An engine for problems over `α` with states `σ` and artifacts `κ`. A failure is a text. -/
structure Engine (α σ κ : Type) where
  compile : Problem α → σ → Except String κ × σ
  solve : κ → SolveInput α → σ → Except String (EngineOutput α) × σ

/-! ### Handles -/

structure SolveStatus where
  exit : ExitStatus
  iterations : Nat
  deriving DecidableEq, Repr

def SolveStatus.converged (status : SolveStatus) : Bool := status.exit = .converged

structure Solution (α : Type) where
  /-- The control action to apply now. -/
  action : List α
  status : SolveStatus
  deriving DecidableEq

/-- What a monitor is told after a solve. -/
structure Update where
  cycle : Nat
  status : SolveStatus
  deriving DecidableEq, Repr

structure Handle (α κ : Type) where
  problem : Problem α
  artifact : κ
  initialState : List α
  parameters : List α
  targets : List (List α)
  /-- Number of completed solves. -/
  cycles : Nat
  /-- What the attached monitor has been told so far. -/
  monitor : Option (List Update)

/-- Programs that change a handle and may fail. A failure keeps what was written before it. -/
abbrev Setter (α κ : Type) : Type → Type := ExceptT (ValidationError α) (StateM (Handle α κ))

/-- The result of a setter, and the handle that it leaves. -/
def Setter.run {α κ : Type} (setter : Setter α κ Unit) (h : Handle α κ) :
    Checked α Unit × Handle α κ :=
  StateT.run (ExceptT.run setter) h

namespace Handle

variable {α κ : Type}

section Scalars

variable [Scalar α]

/-- A handle at the nominal values of a problem. -/
def start (p : Problem α) (artifact : κ) : Handle α κ where
  problem := p
  artifact := artifact
  initialState := p.constraints.initialState.getD (List.replicate p.dimensions.states 0)
  parameters := p.parameters
  targets := List.replicate p.dimensions.intervals p.cost.stageTarget ++ [p.cost.terminalTarget]
  cycles := 0
  monitor := none

/-- Sets the measured state that the next solve starts from. -/
def setInitialState (x0 : List α) : Setter α κ Unit := do
  let h ← get
  checkLength "x0" h.problem.dimensions.states x0
  checkFinite "x0" x0
  set { h with initialState := x0 }

/-- Replaces all runtime parameters, the reference selector included. -/
def setParameters (p : List α) : Setter α κ Unit := do
  let h ← get
  checkLength "p" h.problem.dimensions.parameters p
  checkFinite "p" p
  set { h with parameters := p }

def setParameter (index : Nat) (value : α) : Setter α κ Unit := do
  let h ← get
  if h.parameters.length ≤ index then throw (.outOfRange "p" index h.parameters.length)
  if Scalar.isFinite value = false then throw (.notFinite "p" index)
  set { h with parameters := h.parameters.set index value }

/-- Picks the active segment of the bound profile. -/
def setSelector (selector : α) : Setter α κ Unit := do
  let h ← get
  match h.problem.reference with
  | some binding => setParameter binding.selector selector
  | none => throw .noReference

/-- Sets the target of a stage; the last stage is the terminal one. -/
def setTarget (stage : Nat) (target : List α) : Setter α κ Unit := do
  let h ← get
  let d := h.problem.dimensions
  if d.intervals < stage then throw (.outOfRange "stage" stage (d.intervals + 1))
  if stage = d.intervals then checkLength "yref_e" d.terminalResiduals target
  else checkLength "yref" d.stageResiduals target
  checkFinite "yref" target
  set { h with targets := h.targets.set stage target }

end Scalars

def target? (h : Handle α κ) (stage : Nat) : Option (List α) := h.targets[stage]?

/-- Attaches a monitor that has been told nothing yet. -/
def attachMonitor (h : Handle α κ) : Handle α κ := { h with monitor := some [] }

def input (h : Handle α κ) : SolveInput α where
  initialState := h.initialState
  parameters := h.parameters
  targets := h.targets

/-- The handle after a solve that ended with the given status. -/
def advance (h : Handle α κ) (status : SolveStatus) : Handle α κ :=
  { h with
    monitor := h.monitor.map (· ++ [⟨h.cycles, status⟩])
    cycles := h.cycles + 1 }

/-- A warning if the solver did not converge. -/
def solveNotices (h : Handle α κ) (status : SolveStatus) : List (Notice α) :=
  if status.converged then [] else [.unconverged h.cycles status.exit]

def solve {σ : Type} (engine : Engine α σ κ) (h : Handle α κ) (s : σ) :
    Reported α (ProblemError α) (Solution α) × Handle α κ × σ :=
  match engine.solve h.artifact h.input s with
  | (.error text, s) => (.silent (.error (.solver (.engine text))), h, s)
  | (.ok output, s) =>
    let inputs := h.problem.dimensions.inputs
    if output.action.length = inputs then
      let status : SolveStatus := ⟨output.exit, output.iterations⟩
      (⟨h.solveNotices status, .ok ⟨output.action, status⟩⟩, h.advance status, s)
    else
      let misfit := ValidationError.dimension "u0" inputs output.action.length
      (.silent (.error (.solver (.validation misfit))), h, s)

end Handle

namespace Problem

variable {α κ σ : Type} [Scalar α] [Spectral α]

/-- A compilation starts with the validation of the problem. -/
def checkCompilable (p : Problem α) : Except (ProblemError α) Unit :=
  p.validate.mapError fun e => .compilation p.model (.validation e)

/-- The artifact that the engine makes of a problem. -/
def generate (engine : Engine α σ κ) (p : Problem α) (s : σ) :
    Reported α (ProblemError α) κ × σ :=
  match engine.compile p s with
  | (.error text, s) => (.silent (.error (.compilation p.model (.engine text))), s)
  | (.ok artifact, s) => (⟨[.compiled p.model], .ok artifact⟩, s)

def compile (engine : Engine α σ κ) (p : Problem α) (s : σ) :
    Reported α (ProblemError α) (Handle α κ) × σ :=
  match p.checkCompilable with
  | .error e => (.silent (.error e), s)
  | .ok () =>
    let (artifact, s) := p.generate engine s
    (artifact >>= fun artifact => pure (Handle.start p artifact), s)

end Problem

end RecedingHorizon
