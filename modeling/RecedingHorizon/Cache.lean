import RecedingHorizon.Handle
import RecedingHorizon.Problem.Form

/-!
A cache compiles every problem structure once. Its entries are found by a key, the text of
everything in a problem that a solver has built in: all but the initial state and the nominal
parameters, which every handle takes from its own problem.
-/

namespace RecedingHorizon

def Problem.key (p : Problem Float) : Bytes :=
  Json.render .compact <| .record [
    ("model_name", .ofString p.model),
    ("dims", p.dimensions.form),
    ("cost", p.cost.form Json.ofFloat),
    ("lbu", vectorForm Json.ofFloat p.constraints.lowerBounds),
    ("ubu", vectorForm Json.ofFloat p.constraints.upperBounds),
    ("idxbu", .ofList .ofNat p.constraints.boundedInputs),
    ("reference", .ofOption (Binding.form Json.ofFloat) p.reference),
    ("options", p.options.form Json.ofFloat)]

structure Cache (κ : Type) where
  /-- The artifacts under their keys, the latest first. -/
  entries : List (Bytes × κ)

namespace Cache

variable {κ σ : Type}

def empty : Cache κ := ⟨[]⟩

/-- Number of artifacts held. -/
def size (c : Cache κ) : Nat := c.entries.length

def isEmpty (c : Cache κ) : Bool := c.entries.isEmpty

def find? (c : Cache κ) (key : Bytes) : Option κ := c.entries.lookup key

def insert (c : Cache κ) (key : Bytes) (artifact : κ) : Cache κ := ⟨(key, artifact) :: c.entries⟩

@[simp] theorem find?_insert (c : Cache κ) (key : Bytes) (artifact : κ) :
    (c.insert key artifact).find? key = some artifact := by
  simp [insert, find?]

theorem find?_insert_of_ne (c : Cache κ) {key other : Bytes} (artifact : κ) (h : other ≠ key) :
    (c.insert key artifact).find? other = c.find? other := by
  simp [insert, find?, List.lookup_cons, beq_false_of_ne h]

/-- A fresh handle for a problem, compiled only if the cache has no artifact for it. -/
def handle [Spectral Float] (engine : Engine Float σ κ) (c : Cache κ) (p : Problem Float) (s : σ) :
    Reported Float (ProblemError Float) (Handle Float κ) × Cache κ × σ :=
  match p.checkCompilable with
  | .error e => (.silent (.error e), c, s)
  | .ok () =>
    match c.find? p.key with
    | some artifact => (pure (Handle.start p artifact), c, s)
    | none =>
      let (generated, s) := p.generate engine s
      let c := match generated.result with
        | .ok artifact => c.insert p.key artifact
        | .error _ => c
      (generated >>= fun artifact => pure (Handle.start p artifact), c, s)

end Cache

end RecedingHorizon
