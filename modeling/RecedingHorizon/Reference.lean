import RecedingHorizon.CostMap

/-!
Reference profiles: piecewise constant targets, one of which is active at a time. A profile is bound
to a slot of the runtime parameter vector, the selector; the active segment is the whole part of
the selector, kept inside the profile. Recentring a cost around a profile shifts its maps and
appends the selector to the parameters.
-/

namespace RecedingHorizon

structure Profile (α : Type) where
  segments : List (List α)
  deriving DecidableEq

structure Binding (α : Type) where
  profile : Profile α
  /-- Index of the selector in the runtime parameter vector. -/
  selector : Nat
  deriving DecidableEq

namespace Profile

variable {α : Type}

/-- One target for the whole horizon. -/
def constant (target : List α) : Profile α := ⟨[target]⟩

def targetLength (p : Profile α) : Nat := (p.segments.head?.map List.length).getD 0

variable [Scalar α]

/-- Every segment has the given length and finite entries. -/
def checkSegments (p : Profile α) (length : Nat) : Checked α Unit :=
  p.segments.forM fun segment => do
    checkLength "reference_profile" length segment
    checkFinite "reference_profile" segment

/-- A profile with at least one segment, every one of the given length and finite. -/
def check (p : Profile α) (length : Nat) : Checked α Unit := do
  if p.segments.isEmpty then .error .emptyProfile
  p.checkSegments length

/-- Targets of one length, chosen among at run time. -/
def piecewise (segments : List (List α)) : Checked α (Profile α) := do
  let p : Profile α := ⟨segments⟩
  p.check p.targetLength
  pure p

/-- The place of the segment that a selector picks. -/
def segmentIndex (p : Profile α) (selector : α) : Nat :=
  Scalar.floorUpTo (p.segments.length - 1) selector

/-- The segment that a selector picks from a profile that has one. -/
def select? (p : Profile α) (selector : α) : Option (List α) :=
  p.segments[p.segmentIndex selector]?

end Profile

namespace Binding

variable {α : Type} [Scalar α]

/-- The target that is active under the given runtime parameters. -/
def target (b : Binding α) (parameters : List α) : Checked α (List α) := do
  let selector ← component "reference selector" parameters b.selector
  if b.profile.segments.isEmpty then .error .emptyProfile
  defined "selection of a segment" (b.profile.select? selector)

end Binding

/-- A cost recentred around a profile. -/
structure Recentred (α : Type) where
  stage : CostMap
  terminal : CostMap
  parameters : List α
  binding : Binding α

namespace Profile

variable {α : Type} [Scalar α]

def recentre (p : Profile α) (states inputs : Nat) (parameters : List α) :
    Checked α (Recentred α) := do
  p.check (sizeSum states inputs)
  pure {
    stage := (CostMap.stage states inputs).shifted
    terminal := (CostMap.terminal states).shifted
    parameters := parameters ++ [0]
    binding := { profile := p, selector := parameters.length } }

end Profile

end RecedingHorizon
