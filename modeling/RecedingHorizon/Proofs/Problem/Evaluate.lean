import Mathlib
import RecedingHorizon.Problem.Evaluate
import RecedingHorizon.Proofs.Problem.Content
import RecedingHorizon.Proofs.Problem.Validate

/-!
Well-formed problems can be evaluated. Their residuals have a value at every point of the right
dimensions, because every signal is a component of the point, a bound profile has a segment for
every selector, and every target is a component of that segment. The weights then fit the residuals.
-/

namespace RecedingHorizon

variable {α : Type}

/-! ### Values of residuals -/

/-- The component of a point that a signal names. -/
def Signal.component? (x u : List α) : Signal → Option α
  | .state index => x[index]?
  | .input index => u[index]?

/-- The named component, less the named component of the active segment. -/
def Residual.value? [Sub α] (x u : List α) (segment : Option (List α)) (r : Residual) : Option α :=
  match r.target with
  | none => r.signal.component? x u
  | some index => do
    let value ← r.signal.component? x u
    let shift ← (← segment)[index]?
    some (value - shift)

section Scalars

variable [Scalar α] {x : List α} {u segment : Option (List α)}

theorem Signal.value_eq_ok {s : Signal} (hs : s.IsOf x.length (u.getD []).length) :
    ∃ y, s.component? x (u.getD []) = some y ∧ s.value x u = .ok y := by
  cases s with
  | state index =>
      have hindex : index < x.length := hs
      exact ⟨x[index], by simp [component?, hindex], component_eq_ok.2 (by simp [hindex])⟩
  | input index =>
      cases u with
      | none => exact absurd hs (Nat.not_lt_zero index)
      | some u =>
          have hindex : index < u.length := hs
          exact ⟨u[index], by simp [component?, hindex], component_eq_ok.2 (by simp [hindex])⟩

theorem Residual.evaluate_eq_ok {r : Residual} (hr : r.signal.IsOf x.length (u.getD []).length)
    (htarget : ∀ index ∈ r.target, ∃ target, segment = some target ∧ index < target.length) :
    ∃ y, r.value? x (u.getD []) segment = some y ∧ r.evaluate x u segment = .ok y := by
  obtain ⟨value, hcomponent, hvalue⟩ := Signal.value_eq_ok hr
  cases hindex : r.target with
  | none =>
      refine ⟨value, by simp [value?, hindex, hcomponent], ?_⟩
      simp only [evaluate, hindex, bind_eq_ok]
      exact ⟨value, hvalue, rfl⟩
  | some index =>
      obtain ⟨target, rfl, hlt⟩ := htarget index hindex
      refine ⟨value - target[index], by simp [value?, hindex, hcomponent, hlt], ?_⟩
      simp only [evaluate, hindex, bind_eq_ok, component_eq_ok]
      exact ⟨value, hvalue, target[index], by simp [hlt], rfl⟩

theorem CostMap.evaluate_eq_ok {m : CostMap}
    (hsignal : ∀ r ∈ m.residuals, r.signal.IsOf x.length (u.getD []).length)
    (htarget : ∀ r ∈ m.residuals, ∀ index ∈ r.target,
      ∃ target, segment = some target ∧ index < target.length) :
    ∃ ys, m.evaluate x u segment = .ok ys ∧
      List.Forall₂ (fun r y => r.value? x (u.getD []) segment = some y) m.residuals ys := by
  apply mapM_eq_ok
  intro r hr
  exact Residual.evaluate_eq_ok (hsignal r hr) (htarget r hr)

end Scalars

/-! ### The active segment -/

section Selection

variable [Scalar α] [LawfulScalar α] {length : Nat}

theorem Profile.exists_select? {p : Profile α} (hp : p.segments ≠ []) (selector : α) :
    ∃ segment ∈ p.segments, p.select? selector = some segment := by
  have hpos : 0 < p.segments.length := List.length_pos_iff.2 hp
  have hindex : p.segmentIndex selector < p.segments.length := by
    have := LawfulScalar.floorUpTo_le (p.segments.length - 1) selector
    simp only [segmentIndex]
    omega
  exact ⟨p.segments[p.segmentIndex selector], List.getElem_mem hindex,
    List.getElem?_eq_getElem hindex⟩

theorem Profile.select?_eq_some {p : Profile α} (hp : p.Fits length) (selector : α) :
    ∃ segment, p.select? selector = some segment ∧ segment.length = length := by
  obtain ⟨segment, hsegment, hselect⟩ := p.exists_select? hp.nonempty selector
  exact ⟨segment, hselect, hp.length segment hsegment⟩

theorem Binding.target_eq_ok {b : Binding α} (hb : b.profile.Fits length) {parameters : List α}
    (hselector : b.selector < parameters.length) :
    ∃ segment, parameters[b.selector]?.bind b.profile.select? = some segment ∧
      segment.length = length ∧ b.target parameters = .ok segment := by
  obtain ⟨segment, hsegment, hlength⟩ := Profile.select?_eq_some hb parameters[b.selector]
  refine ⟨segment, by simp [hselector, hsegment], hlength, ?_⟩
  simp only [target, bind_eq_ok, component_eq_ok, defined_eq_ok, guard_eq_ok]
  refine ⟨parameters[b.selector], by simp [hselector], ?_, hsegment⟩
  simpa using hb.nonempty

namespace Problem

/-- The segment that the runtime parameters select, if a profile is bound. -/
def segment? (p : Problem α) (parameters : List α) : Option (List α) :=
  p.reference.bind fun b => parameters[b.selector]?.bind b.profile.select?

variable {p : Problem α} {parameters : List α}

theorem activeTarget_eq_ok (hp : p.ReferenceFits)
    (hparameters : parameters.length = p.dimensions.parameters) :
    p.activeTarget parameters = .ok (p.segment? parameters) ∧
      (p.reference ≠ none → ∃ segment, p.segment? parameters = some segment ∧
        segment.length = sizeSum p.dimensions.states p.dimensions.inputs) := by
  cases hreference : p.reference with
  | none => simp [activeTarget, segment?, hreference, pure_eq_ok]
  | some b =>
      have hselector : b.selector < parameters.length := hparameters ▸ hp.selector b hreference
      obtain ⟨segment, hsegment, hlength, htarget⟩ :=
        Binding.target_eq_ok (hp.profile b hreference) hselector
      have heq : p.segment? parameters = some segment := by simp [segment?, hreference, hsegment]
      refine ⟨?_, fun _ => ⟨segment, heq, hlength⟩⟩
      simp only [activeTarget, hreference, htarget, heq]
      rfl

/-! ### Residuals and costs -/

/-- Entry `i` is the value of residual `i` less entry `i` of the target kept with the cost. -/
structure IsResidual (map : CostMap) (fixedTarget x u : List α) (segment : Option (List α))
    (r : List α) : Prop where
  length : r.length = map.residuals.length
  entry : ∀ (i : Nat) (residual : Residual), map.residuals[i]? = some residual →
    ∃ y c, residual.value? x u segment = some y ∧ fixedTarget[i]? = some c ∧ r[i]? = some (y - c)

/-- Every component of a target that the map subtracts is one that the segments have. -/
def Covers (p : Problem α) (map : CostMap) : Prop :=
  ∀ r ∈ map.residuals, ∀ index ∈ r.target,
    index < sizeSum p.dimensions.states p.dimensions.inputs

section Residuals

variable {map : CostMap} {fixedTarget x : List α} {u : Option (List α)}
  {residuals : Nat}

omit [Scalar α] [LawfulScalar α] in
/-- Without a profile, no residual of a valid problem has a target. -/
theorem reference_ne_none_of_mem (hshift : p.reference = none → map.isShifted = false)
    {r : Residual} (hr : r ∈ map.residuals) {index : Nat} (hindex : index ∈ r.target) :
    p.reference ≠ none := by
  intro hnone
  have hunshifted := hshift hnone
  simp only [CostMap.isShifted, List.any_eq_false] at hunshifted
  have htarget := hunshifted r hr
  rw [Option.mem_def.1 hindex] at htarget
  exact htarget rfl

theorem exists_target_of_mem (hp : p.ReferenceFits)
    (hparameters : parameters.length = p.dimensions.parameters)
    (hshift : p.reference = none → map.isShifted = false) (hcovers : p.Covers map) :
    ∀ r ∈ map.residuals, ∀ index ∈ r.target,
      ∃ target, p.segment? parameters = some target ∧ index < target.length := by
  intro r hr index hindex
  obtain ⟨segment, hsegment, hlength⟩ :=
    (activeTarget_eq_ok hp hparameters).2 (reference_ne_none_of_mem hshift hr hindex)
  exact ⟨segment, hsegment, hlength ▸ hcovers r hr index hindex⟩

/-- A residual has been evaluated only if its component is in the segment. -/
theorem covers_of_residual {field : String} {r : List α} (hp : p.ReferenceFits)
    (hparameters : parameters.length = p.dimensions.parameters)
    (hshift : p.reference = none → map.isShifted = false)
    (h : p.residual field map fixedTarget x u parameters = .ok r) : p.Covers map := by
  intro residual hmem index hindex
  obtain ⟨hactive, hbound⟩ := activeTarget_eq_ok hp hparameters
  obtain ⟨segment, hsegment, hlength⟩ := hbound (reference_ne_none_of_mem hshift hmem hindex)
  simp only [Problem.residual, hactive, hsegment, ok_bind, bind_eq_ok] at h
  obtain ⟨ys, hys, -⟩ := h
  obtain ⟨i, hi⟩ := List.mem_iff_getElem?.1 hmem
  obtain ⟨y, -, hy⟩ := (mapM_eq_ok_iff.1 hys).2 i residual hi
  simp only [Residual.evaluate, Option.mem_def.1 hindex, bind_eq_ok, component_eq_ok] at hy
  obtain ⟨_, -, _, hcomponent, -⟩ := hy
  exact hlength ▸ (List.getElem?_eq_some_iff.1 hcomponent).1

theorem residual_eq_ok (field : String) (hp : p.ReferenceFits)
    (hparameters : parameters.length = p.dimensions.parameters)
    (hmap : map.Fits residuals x.length (u.getD []).length)
    (hshift : p.reference = none → map.isShifted = false) (hcovers : p.Covers map)
    (hfixed : fixedTarget.length = residuals) :
    ∃ r, p.residual field map fixedTarget x u parameters = .ok r ∧
      IsResidual map fixedTarget x (u.getD []) (p.segment? parameters) r := by
  have hactive := (activeTarget_eq_ok hp hparameters).1
  have htarget := exists_target_of_mem hp hparameters hshift hcovers
  obtain ⟨ys, hys, hall⟩ := CostMap.evaluate_eq_ok hmap.signal htarget
  -- values, residuals and fixed target have one length, so nothing is lost in the difference
  have hlength : map.residuals.length = ys.length := hall.length_eq
  have hsame : ys.length = fixedTarget.length := by rw [← hlength, hmap.length, hfixed]
  refine ⟨List.zipWith (· - ·) ys fixedTarget, ?_, ?_, ?_⟩
  · simp only [residual, bind_eq_ok, defined_eq_ok]
    exact ⟨_, hactive, ys, hys, (), checkLength_eq_ok.2 hsame.symm, if_pos hsame⟩
  · rw [List.length_zipWith, hlength]
    omega
  · intro i residual hi
    obtain ⟨hlt, rfl⟩ := List.getElem?_eq_some_iff.1 hi
    have hy : i < ys.length := hlength ▸ hlt
    have hc : i < fixedTarget.length := hsame ▸ hy
    refine ⟨ys[i], fixedTarget[i], hall.get hlt hy, List.getElem?_eq_getElem hc, ?_⟩
    simp [hy, hc]

end Residuals

end Problem

end Selection

namespace Problem

section Lengths

variable [Scalar α] {p : Problem α} {x u parameters r : List α}

theorem lengths_of_stageResidual (h : p.stageResidual x u parameters = .ok r) :
    x.length = p.dimensions.states ∧ u.length = p.dimensions.inputs ∧
      parameters.length = p.dimensions.parameters := by
  simp only [stageResidual, bind_unit_eq_ok, checkLength_eq_ok] at h
  exact ⟨h.1, h.2.1, h.2.2.1⟩

theorem lengths_of_terminalResidual (h : p.terminalResidual x parameters = .ok r) :
    x.length = p.dimensions.states ∧ parameters.length = p.dimensions.parameters := by
  simp only [terminalResidual, bind_unit_eq_ok, checkLength_eq_ok] at h
  exact ⟨h.1, h.2.1⟩

theorem halfQuadratic_eq_ok (field : String) {weight : Matrix α} {r : List α}
    (hrows : weight.rows = r.length) (hcols : weight.cols = r.length) :
    ∃ cost, halfQuadratic field weight r = .ok cost := by
  have hproduct : r.length = (List.ofFn fun i => dot (weight.row i) r).length := by
    rw [List.length_ofFn, hrows]
  simp only [halfQuadratic, bind_eq_ok, defined_eq_ok, pure_eq_ok]
  exact ⟨_, (), checkDimension_eq_ok.2 hrows.symm, (), checkDimension_eq_ok.2 hcols.symm,
    _, if_pos hcols, _, if_pos hproduct, rfl⟩

end Lengths

variable [Scalar α] [Spectral α]

/-- A cost is defined where its residual is, since the weight has the residual's size. -/
theorem exists_cost_iff {field : String} {weight : Matrix α} {residuals : Nat}
    {residual : Checked α (List α)} (hweight : checkWeight field residuals weight = .ok ())
    (hlength : ∀ r, residual = .ok r → r.length = residuals) :
    (∃ cost, residual >>= halfQuadratic field weight = .ok cost) ↔ ∃ r, residual = .ok r := by
  constructor
  · rintro ⟨cost, hcost⟩
    obtain ⟨r, hr, -⟩ := bind_eq_ok.1 hcost
    exact ⟨r, hr⟩
  · rintro ⟨r, hr⟩
    obtain ⟨hrows, hcols⟩ := shape_of_checkWeight hweight
    have hsize := (hlength r hr).symm
    obtain ⟨cost, hcost⟩ := halfQuadratic_eq_ok field (hrows.trans hsize) (hcols.trans hsize)
    exact ⟨cost, bind_eq_ok.2 ⟨r, hr, hcost⟩⟩

variable [LawfulScalar α] {p : Problem α} {x u parameters r : List α}

omit [LawfulScalar α] in
theorem WellFormed.isShifted_stageMap (hp : p.WellFormed) (hnone : p.reference = none) :
    p.cost.stageMap.isShifted = false :=
  (Bool.or_eq_false_iff.1 (hp.reference.unshifted hnone)).1

omit [LawfulScalar α] in
theorem WellFormed.isShifted_terminalMap (hp : p.WellFormed) (hnone : p.reference = none) :
    p.cost.terminalMap.isShifted = false :=
  (Bool.or_eq_false_iff.1 (hp.reference.unshifted hnone)).2

omit [LawfulScalar α] in
/-- The targets of the terminal map are checked against the states alone. That is enough as long as
the sum of states and inputs is a word. -/
theorem covers_terminalMap (hp : p.WellFormed) (hsum : p.SumFits) :
    p.Covers p.cost.terminalMap := by
  intro r hr index hindex
  have hbound := reference_ne_none_of_mem hp.isShifted_terminalMap hr hindex
  have hlt := hp.cost.terminalMap.target r hr index hindex
  have hle := sizeSum_le p.dimensions.states 0
  rw [sizeSum_of_lt (hsum.resolve_left hbound)]
  omega

theorem exists_stageResidual (hp : p.WellFormed) (hx : x.length = p.dimensions.states)
    (hu : u.length = p.dimensions.inputs)
    (hparameters : parameters.length = p.dimensions.parameters) :
    ∃ r, p.stageResidual x u parameters = .ok r ∧
      IsResidual p.cost.stageMap p.cost.stageTarget x u (p.segment? parameters) r := by
  have hmap : p.cost.stageMap.Fits p.dimensions.stageResiduals x.length
      ((some u).getD []).length := by
    simpa [hx, hu] using hp.cost.stageMap
  obtain ⟨r, hr, hresidual⟩ := residual_eq_ok "yref" hp.reference hparameters hmap
    hp.isShifted_stageMap hp.cost.stageMap.target hp.cost.stageTarget
  refine ⟨r, ?_, hresidual⟩
  simp only [stageResidual, bind_unit_eq_ok, checkLength_eq_ok]
  exact ⟨hx, hu, hparameters, hr⟩

/-- The terminal cost is evaluated without inputs. -/
theorem exists_terminalResidual (hp : p.WellFormed) (hcovers : p.Covers p.cost.terminalMap)
    (hx : x.length = p.dimensions.states)
    (hparameters : parameters.length = p.dimensions.parameters) :
    ∃ r, p.terminalResidual x parameters = .ok r ∧
      IsResidual p.cost.terminalMap p.cost.terminalTarget x [] (p.segment? parameters) r := by
  have hmap : p.cost.terminalMap.Fits p.dimensions.terminalResiduals x.length
      ((none : Option (List α)).getD []).length := by
    simpa [hx] using hp.cost.terminalMap
  obtain ⟨r, hr, hresidual⟩ := residual_eq_ok "yref_e" hp.reference hparameters hmap
    hp.isShifted_terminalMap hcovers hp.cost.terminalTarget
  refine ⟨r, ?_, hresidual⟩
  simp only [terminalResidual, bind_unit_eq_ok, checkLength_eq_ok]
  exact ⟨hx, hparameters, hr⟩

theorem covers_of_terminalResidual (hp : p.WellFormed)
    (h : p.terminalResidual x parameters = .ok r) : p.Covers p.cost.terminalMap := by
  simp only [terminalResidual, bind_unit_eq_ok, checkLength_eq_ok] at h
  obtain ⟨-, hparameters, h⟩ := h
  exact covers_of_residual hp.reference hparameters hp.isShifted_terminalMap h

theorem isResidual_of_stageResidual (hp : p.WellFormed)
    (h : p.stageResidual x u parameters = .ok r) :
    r.length = p.dimensions.stageResiduals ∧
      IsResidual p.cost.stageMap p.cost.stageTarget x u (p.segment? parameters) r := by
  obtain ⟨hx, hu, hparameters⟩ := lengths_of_stageResidual h
  obtain ⟨_, hr, hresidual⟩ := exists_stageResidual hp hx hu hparameters
  cases h.symm.trans hr
  exact ⟨hresidual.length.trans hp.cost.stageMap.length, hresidual⟩

theorem isResidual_of_terminalResidual (hp : p.WellFormed)
    (h : p.terminalResidual x parameters = .ok r) :
    r.length = p.dimensions.terminalResiduals ∧
      IsResidual p.cost.terminalMap p.cost.terminalTarget x [] (p.segment? parameters) r := by
  obtain ⟨hx, hparameters⟩ := lengths_of_terminalResidual h
  obtain ⟨_, hr, hresidual⟩ :=
    exists_terminalResidual hp (covers_of_terminalResidual hp h) hx hparameters
  cases h.symm.trans hr
  exact ⟨hresidual.length.trans hp.cost.terminalMap.length, hresidual⟩

theorem exists_terminalCost_iff (hp : p.WellFormed) :
    (∃ cost, p.terminalCost x parameters = .ok cost) ↔
      ∃ r, p.terminalResidual x parameters = .ok r :=
  exists_cost_iff hp.cost.terminalWeight fun _ hr => (isResidual_of_terminalResidual hp hr).1

theorem exists_terminalResidual_iff (hp : p.WellFormed) :
    (∃ r, p.terminalResidual x parameters = .ok r) ↔
      x.length = p.dimensions.states ∧ parameters.length = p.dimensions.parameters ∧
        p.Covers p.cost.terminalMap := by
  constructor
  · rintro ⟨r, hr⟩
    obtain ⟨hx, hparameters⟩ := lengths_of_terminalResidual hr
    exact ⟨hx, hparameters, covers_of_terminalResidual hp hr⟩
  · rintro ⟨hx, hparameters, hcovers⟩
    obtain ⟨r, hr, -⟩ := exists_terminalResidual hp hcovers hx hparameters
    exact ⟨r, hr⟩

/-! ### Dependence on the runtime parameters -/

section Dependence

variable {parameters' : List α}

theorem activeTarget_congr (hp : p.WellFormed)
    (hparameters : parameters.length = p.dimensions.parameters)
    (hparameters' : parameters'.length = p.dimensions.parameters)
    (hsegment : p.segment? parameters = p.segment? parameters') :
    p.activeTarget parameters = p.activeTarget parameters' := by
  rw [(activeTarget_eq_ok hp.reference hparameters).1,
    (activeTarget_eq_ok hp.reference hparameters').1, hsegment]

theorem stageResidual_congr (hp : p.WellFormed)
    (hparameters : parameters.length = p.dimensions.parameters)
    (hparameters' : parameters'.length = p.dimensions.parameters)
    (hsegment : p.segment? parameters = p.segment? parameters') :
    p.stageResidual x u parameters = p.stageResidual x u parameters' := by
  have hactive := activeTarget_congr hp hparameters hparameters' hsegment
  simp only [stageResidual, residual, checkLength, hparameters, hparameters', hactive]

theorem terminalResidual_congr (hp : p.WellFormed)
    (hparameters : parameters.length = p.dimensions.parameters)
    (hparameters' : parameters'.length = p.dimensions.parameters)
    (hsegment : p.segment? parameters = p.segment? parameters') :
    p.terminalResidual x parameters = p.terminalResidual x parameters' := by
  have hactive := activeTarget_congr hp hparameters hparameters' hsegment
  simp only [terminalResidual, residual, checkLength, hparameters, hparameters', hactive]

end Dependence

end Problem

end RecedingHorizon
