import Mathlib
import RecedingHorizon.Proofs.Problem.Evaluate
import RecedingHorizon.Proofs.Weight

/-!
No operation on a problem meets operands outside its domain. The fields of a problem can be edited
to anything, and nothing but the checks stands between them and the operations on vectors, matrices
and segments. Whatever a problem is like, its validation and its evaluations end with a value or with
an error about the data. An evaluation has no other errors than two sizes that really disagree and a
profile without segments.
-/

namespace RecedingHorizon

variable {α : Type}

/-! ### Errors -/

namespace ValidationError

/-- An error about the data, as opposed to an operation that met operands outside its domain. -/
def Proper : ValidationError α → Prop
  | .undefined _ => False
  | _ => True

/-- Two sizes are said to disagree, and they do; or a profile is said to have no segments. -/
def Misfit : ValidationError α → Prop
  | .dimension _ expected actual => expected ≠ actual
  | .outOfRange _ index length => length ≤ index
  | .emptyProfile => True
  | _ => False

theorem Misfit.proper {e : ValidationError α} (he : e.Misfit) : e.Proper := by
  cases e with
  | undefined => exact he
  | _ => trivial

end ValidationError

/-! ### Ways to fail -/

/-- All the ways to fail are among those that `P` allows. -/
def FailsOnly {ε β : Type} (P : ε → Prop) (r : Except ε β) : Prop := ∀ e, r = .error e → P e

open ValidationError

section FailsOnly

variable {ε β γ : Type} {P : ε → Prop}

@[simp] theorem failsOnly_ok {b : β} : FailsOnly P (.ok b) := nofun

@[simp] theorem failsOnly_pure {b : β} : FailsOnly P (pure b) := failsOnly_ok

@[simp] theorem failsOnly_error {e : ε} : FailsOnly P (.error e : Except ε β) ↔ P e :=
  ⟨fun h => h e rfl, fun he _ heq => Except.error.inj heq ▸ he⟩

theorem FailsOnly.proper {r : Checked α β} (h : FailsOnly Misfit r) : FailsOnly Proper r :=
  fun e he => (h e he).proper

theorem FailsOnly.bind {x : Except ε β} {f : β → Except ε γ} (hx : FailsOnly P x)
    (hf : ∀ b, x = .ok b → FailsOnly P (f b)) : FailsOnly P (x >>= f) := by
  intro e he
  rcases bind_eq_error.1 he with hnow | ⟨b, hb, hlater⟩
  · exact hx e hnow
  · exact hf b hb e hlater

theorem failsOnly_guard {bad : Prop} [Decidable bad] {e : ε} {rest : Except ε β}
    (he : bad → P e) (hrest : ¬ bad → FailsOnly P rest) :
    FailsOnly P (if bad then .error e else rest) := by
  split
  next hbad => exact failsOnly_error.2 (he hbad)
  next hbad => exact hrest hbad

theorem failsOnly_forM {f : β → Except ε Unit} {xs : List β} (hf : ∀ x ∈ xs, FailsOnly P (f x)) :
    FailsOnly P (xs.forM f) := by
  induction xs with
  | nil => exact failsOnly_ok
  | cons x xs ih =>
      rw [List.forall_mem_cons] at hf
      exact hf.1.bind fun _ _ => ih hf.2

theorem failsOnly_mapM {f : β → Except ε γ} {xs : List β} (hf : ∀ x ∈ xs, FailsOnly P (f x)) :
    FailsOnly P (xs.mapM f) := by
  induction xs with
  | nil => exact failsOnly_ok
  | cons x xs ih =>
      rw [List.forall_mem_cons] at hf
      rw [List.mapM_cons]
      exact hf.1.bind fun _ _ => (ih hf.2).bind fun _ _ => failsOnly_pure

end FailsOnly

/-! ### Single checks -/

theorem failsOnly_checkDimension {field : String} {expected actual : Nat} :
    FailsOnly Misfit (checkDimension field expected actual : Checked α Unit) := by
  unfold checkDimension
  split
  next => exact failsOnly_ok
  next hne => exact failsOnly_error.2 hne

theorem failsOnly_checkLength {field : String} {expected : Nat} {v : List α} :
    FailsOnly Misfit (checkLength field expected v) := failsOnly_checkDimension

theorem failsOnly_component {field : String} {v : List α} {index : Nat} :
    FailsOnly Misfit (component field v index) := by
  unfold component
  cases hentry : v[index]? with
  | some x => exact failsOnly_ok
  | none => exact failsOnly_error.2 (List.getElem?_eq_none_iff.1 hentry)

section Scalars

variable [Scalar α] {field : String}

theorem failsOnly_checkFinite {v : List α} : FailsOnly Proper (checkFinite field v) := by
  intro e he
  obtain ⟨index, rfl⟩ := exists_index_of_checkFinite he
  trivial

theorem failsOnly_checkPositive {value : α} : FailsOnly Proper (checkPositive field value) := by
  unfold checkPositive
  split
  · exact failsOnly_ok
  · exact failsOnly_error.2 trivial

end Scalars

/-! ### Evaluations -/

section Evaluations

variable [Scalar α] {x : List α} {u target : Option (List α)}

theorem failsOnly_value {s : Signal} : FailsOnly Misfit (s.value x u) := by
  cases s with
  | state index => exact failsOnly_component
  | input index =>
      cases u with
      | none => exact failsOnly_ok
      | some u => exact failsOnly_component

theorem failsOnly_evaluate {m : CostMap} : FailsOnly Misfit (m.evaluate x u target) := by
  refine failsOnly_mapM fun r _ => failsOnly_value.bind fun value _ => ?_
  split
  · exact failsOnly_component.bind fun _ _ => failsOnly_pure
  · exact failsOnly_pure

/-- A selector picks a segment of every profile that has one, whatever its value is. -/
theorem failsOnly_target [LawfulScalar α] (b : Binding α) (parameters : List α) :
    FailsOnly Misfit (b.target parameters) := by
  refine failsOnly_component.bind fun selector _ => failsOnly_guard (fun _ => trivial) fun hsome => ?_
  have hne : b.profile.segments ≠ [] := by simpa using hsome
  obtain ⟨segment, -, hselect⟩ := b.profile.exists_select? hne selector
  rw [hselect]
  exact failsOnly_ok

namespace Problem

variable [LawfulScalar α]

theorem failsOnly_activeTarget (p : Problem α) (parameters : List α) :
    FailsOnly Misfit (p.activeTarget parameters) := by
  unfold activeTarget
  split
  · exact (failsOnly_target _ parameters).bind fun _ _ => failsOnly_pure
  · exact failsOnly_pure

theorem failsOnly_residual (p : Problem α) (field : String) (map : CostMap)
    (fixedTarget parameters : List α) :
    FailsOnly Misfit (p.residual field map fixedTarget x u parameters) := by
  refine (p.failsOnly_activeTarget parameters).bind fun _ _ => failsOnly_evaluate.bind fun y _ =>
    failsOnly_checkLength.bind fun _ hlength => ?_
  rw [sub?, if_pos (checkLength_eq_ok.1 hlength).symm]
  exact failsOnly_ok

omit [LawfulScalar α] in
/-- The shape of the weight is known before it is multiplied with the residual. -/
theorem failsOnly_halfQuadratic {field : String} {weight : Matrix α} {r : List α} :
    FailsOnly Misfit (halfQuadratic field weight r) := by
  refine failsOnly_checkDimension.bind fun _ hrows => failsOnly_checkDimension.bind fun _ hcols => ?_
  have hweighted : weight.mulVec? r = some (List.ofFn fun i => dot (weight.row i) r) :=
    if_pos (checkDimension_eq_ok.1 hcols).symm
  have hlength : r.length = (List.ofFn fun i => dot (weight.row i) r).length := by
    rw [List.length_ofFn, checkDimension_eq_ok.1 hrows]
  rw [hweighted, defined_some, ok_bind, dot?, if_pos hlength, defined_some, ok_bind]
  exact failsOnly_pure

theorem failsOnly_stageResidual (p : Problem α) (x u parameters : List α) :
    FailsOnly Misfit (p.stageResidual x u parameters) :=
  failsOnly_checkLength.bind fun _ _ => failsOnly_checkLength.bind fun _ _ =>
    failsOnly_checkLength.bind fun _ _ => p.failsOnly_residual _ _ _ _

theorem failsOnly_terminalResidual (p : Problem α) (x parameters : List α) :
    FailsOnly Misfit (p.terminalResidual x parameters) :=
  failsOnly_checkLength.bind fun _ _ => failsOnly_checkLength.bind fun _ _ =>
    p.failsOnly_residual _ _ _ _

theorem failsOnly_stageCost (p : Problem α) (x u parameters : List α) :
    FailsOnly Misfit (p.stageCost x u parameters) :=
  (p.failsOnly_stageResidual x u parameters).bind fun _ _ => failsOnly_halfQuadratic

theorem failsOnly_terminalCost (p : Problem α) (x parameters : List α) :
    FailsOnly Misfit (p.terminalCost x parameters) :=
  (p.failsOnly_terminalResidual x parameters).bind fun _ _ => failsOnly_halfQuadratic

end Problem

end Evaluations

/-! ### Weights -/

section Weights

variable [Scalar α] [Spectral α] [LawfulSigns α] [LawfulSpectral α] {field : String} {n : Nat}
  {m : Matrix α}

/-- A weight is measured only once it is square and has a row, so that it has a largest entry and a
least eigenvalue. -/
theorem failsOnly_checkWeight_of_finite (hrows : m.rows = n) (hsquare : m.cols = m.rows)
    (hfinite : ∀ x ∈ m.entries, Scalar.isFinite x = true) :
    FailsOnly Proper (checkWeight field n m) := by
  rw [checkWeight_of_finite hrows hsquare hfinite]
  split
  next => exact failsOnly_ok
  next hn =>
    have hpos : 0 < m.rows := by omega
    obtain ⟨tolerance, htolerance, -⟩ :=
      exists_weightTolerance hfinite (m.entries_ne_nil hpos (hsquare ▸ hpos))
    obtain ⟨eigenvalue, heigenvalue⟩ :=
      LawfulSpectral.exists_leastEigenvalue? m hsquare hpos hfinite
    rw [htolerance, defined_some, ok_bind]
    split
    · rw [heigenvalue, defined_some, ok_bind]
      exact failsOnly_guard (fun _ => trivial) fun _ => failsOnly_ok
    · exact failsOnly_error.2 trivial

theorem failsOnly_checkWeight : FailsOnly Proper (checkWeight field n m) := by
  by_cases hsize : m.rows = n ∧ m.cols = m.rows
  · by_cases hfinite : ∀ x ∈ m.entries, Scalar.isFinite x = true
    · exact failsOnly_checkWeight_of_finite hsize.1 hsize.2 hfinite
    · obtain ⟨row, col, herror⟩ := checkWeight_of_not_finite field hsize.1 hsize.2 hfinite
      rw [herror]
      exact failsOnly_error.2 trivial
  · obtain ⟨actual, herror⟩ := checkWeight_of_misfit field hsize
    rw [herror]
    exact failsOnly_error.2 trivial

end Weights

/-! ### Validations -/

section Blocks

theorem failsOnly_checkResidual {field : String} {states inputs targets : Nat} {r : Residual} :
    FailsOnly Misfit (CostMap.checkResidual field states inputs targets r : Checked α Unit) := by
  refine failsOnly_guard id fun _ => ?_
  split
  · exact failsOnly_guard id fun _ => failsOnly_ok
  · exact failsOnly_ok

theorem failsOnly_checkMap {field : String} {residuals states inputs : Nat} {m : CostMap} :
    FailsOnly Misfit (m.check field residuals states inputs : Checked α Unit) :=
  failsOnly_checkDimension.bind fun _ _ => failsOnly_forM fun _ _ => failsOnly_checkResidual

variable [Scalar α]

theorem failsOnly_checkProfile {p : Profile α} {length : Nat} :
    FailsOnly Proper (p.check length) := by
  refine failsOnly_guard (fun _ => trivial) fun _ => failsOnly_forM fun segment _ => ?_
  exact failsOnly_checkLength.proper.bind fun _ _ => failsOnly_checkFinite

namespace Problem

theorem failsOnly_checkHorizon (p : Problem α) : FailsOnly Proper p.checkHorizon := by
  refine failsOnly_guard (fun _ => trivial) fun _ =>
    failsOnly_checkDimension.proper.bind fun _ _ => failsOnly_checkPositive.bind fun _ _ => ?_
  exact failsOnly_guard (fun _ => trivial) fun _ => failsOnly_ok

theorem failsOnly_checkConstraints (p : Problem α) : FailsOnly Proper p.checkConstraints := by
  refine failsOnly_checkLength.proper.bind fun _ _ => failsOnly_checkLength.proper.bind fun _ _ =>
    failsOnly_checkFinite.bind fun _ _ => failsOnly_checkFinite.bind fun _ _ =>
    failsOnly_checkDimension.proper.bind fun _ _ => ?_
  cases p.constraints.boundedInputs.find? fun index => p.dimensions.inputs ≤ index with
  | some index => exact failsOnly_error.2 trivial
  | none =>
      cases p.constraints.initialState with
      | some x0 => exact failsOnly_checkLength.proper
      | none => exact failsOnly_error.2 trivial

theorem failsOnly_checkReference (p : Problem α) : FailsOnly Proper p.checkReference := by
  refine failsOnly_checkLength.proper.bind fun _ _ => ?_
  split
  · exact failsOnly_guard (fun _ => trivial) fun _ => failsOnly_checkProfile
  · exact failsOnly_guard (fun _ => trivial) fun _ => failsOnly_ok

end Problem

end Blocks

/-! ### Safety -/

namespace Problem

section Lawful

variable [Scalar α] [Spectral α] [LawfulSigns α] [LawfulSpectral α]

theorem failsOnly_checkCost (p : Problem α) : FailsOnly Proper p.checkCost :=
  failsOnly_checkMap.proper.bind fun _ _ => failsOnly_checkMap.proper.bind fun _ _ =>
    failsOnly_checkWeight.bind fun _ _ => failsOnly_checkWeight.bind fun _ _ =>
    failsOnly_checkLength.proper.bind fun _ _ => failsOnly_checkLength.proper

theorem failsOnly_validate (p : Problem α) : FailsOnly Proper p.validate :=
  p.failsOnly_checkHorizon.bind fun _ _ => p.failsOnly_checkCost.bind fun _ _ =>
    p.failsOnly_checkConstraints.bind fun _ _ => p.failsOnly_checkReference

end Lawful

/-- Whatever the fields of a problem are, no operation of its validation or of its evaluations meets
operands outside its domain: both end with a value or with an error about the data, if the routine
for eigenvalues has a value for every finite square matrix with a row. The errors of an evaluation
name two sizes that disagree, or a profile without segments. -/
theorem failsOnly_misfit [Spectral Float] [LawfulSpectral Float] (p : Problem Float) :
    FailsOnly Proper p.validate ∧
    (∀ x u parameters, FailsOnly Misfit (p.stageResidual x u parameters) ∧
      FailsOnly Misfit (p.stageCost x u parameters)) ∧
    (∀ x parameters, FailsOnly Misfit (p.terminalResidual x parameters) ∧
      FailsOnly Misfit (p.terminalCost x parameters)) ∧
    ∀ (b : Binding Float) parameters, FailsOnly Misfit (b.target parameters) :=
  ⟨p.failsOnly_validate,
    fun x u parameters => ⟨p.failsOnly_stageResidual x u parameters,
      p.failsOnly_stageCost x u parameters⟩,
    fun x parameters => ⟨p.failsOnly_terminalResidual x parameters,
      p.failsOnly_terminalCost x parameters⟩,
    failsOnly_target⟩

end Problem

namespace Tank

/-- The tank after its profile was emptied and bound to a slot that it does not have. -/
def stale : Problem Float := { problem with reference := some ⟨⟨[]⟩, 5⟩ }

end Tank

namespace Problem

/-- The missing slot is met first, in an evaluation as in a validation. -/
theorem failsOnly_misfit_stale :
    (∃ e, Tank.stale.stageCost [1] [0.5] [0] = .error e ∧ e.Misfit) ∧
      ∃ e, Tank.stale.validate = .error e ∧ e.Proper := by
  have hcost : Tank.stale.stageCost [1] [0.5] [0] =
      .error (.outOfRange "reference selector" 5 1) := by decide +kernel
  have hvalidate : Tank.stale.validate =
      .error (.outOfRange "reference selector" 5 1) := by decide +kernel
  obtain ⟨hvalidation, hstage, -, -⟩ := failsOnly_misfit Tank.stale
  exact ⟨⟨_, hcost, (hstage _ _ _).2 _ hcost⟩, _, hvalidate, hvalidation _ hvalidate⟩

end Problem

end RecedingHorizon
