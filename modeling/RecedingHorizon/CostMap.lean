import RecedingHorizon.Check

/-!
Least-squares cost maps. A residual reads one state or input, and may subtract one component of
the active target from it. Shifting a map attaches target component `i` to residual `i`.
-/

namespace RecedingHorizon

/-- A scalar variable of the process. -/
inductive Signal where
  | state (index : Nat)
  | input (index : Nat)
  deriving DecidableEq, Repr

structure Residual where
  signal : Signal
  /-- The component of the active target that is subtracted. -/
  target : Option Nat := none
  deriving DecidableEq, Repr

structure CostMap where
  residuals : List Residual
  deriving DecidableEq, Repr

/-- Entry `index` of a vector. -/
def component {α : Type} (field : String) (v : List α) (index : Nat) : Checked α α :=
  match v[index]? with
  | some x => .ok x
  | none => .error (.outOfRange field index v.length)

theorem component_eq_ok {α : Type} {field : String} {v : List α} {index : Nat} {x : α} :
    component field v index = .ok x ↔ v[index]? = some x := by
  unfold component
  cases v[index]? <;> simp

namespace Signal

variable {α : Type} [Scalar α]

/-- The value of a signal; without inputs they count as zero. -/
def value (x : List α) (u : Option (List α)) : Signal → Checked α α
  | .state index => component "x" x index
  | .input index => match u with
    | some u => component "u" u index
    | none => .ok 0

end Signal

namespace Residual

variable {α : Type} [Scalar α]

def evaluate (x : List α) (u target : Option (List α)) (r : Residual) : Checked α α := do
  let value ← r.signal.value x u
  match r.target, target with
  | some index, some target => do
    let shift ← component "reference" target index
    pure (value - shift)
  | _, _ => pure value

end Residual

namespace CostMap

/-- All states, then all inputs. -/
def stage (states inputs : Nat) : CostMap where
  residuals :=
    (List.range states).map (fun i => { signal := .state i })
      ++ (List.range inputs).map fun i => { signal := .input i }

def terminal (states : Nat) : CostMap := stage states 0

def length (m : CostMap) : Nat := m.residuals.length

def isEmpty (m : CostMap) : Bool := m.residuals.isEmpty

def isShifted (m : CostMap) : Bool := m.residuals.any fun r => r.target.isSome

def shifted (m : CostMap) : CostMap where
  residuals := m.residuals.mapIdx fun index r => { r with target := some index }

@[simp] theorem length_stage (states inputs : Nat) : (stage states inputs).length = states + inputs := by
  simp [length, stage]

@[simp] theorem length_terminal (states : Nat) : (terminal states).length = states := by
  simp [terminal]

@[simp] theorem length_shifted (m : CostMap) : m.shifted.length = m.length := by
  simp [length, shifted]

variable {α : Type} [Scalar α]

/-- The value of every residual, or the first one that reads past the end of a vector. -/
def evaluate (m : CostMap) (x : List α) (u target : Option (List α)) : Checked α (List α) :=
  m.residuals.mapM (Residual.evaluate x u target)

end CostMap

end RecedingHorizon
