import Mathlib
import RecedingHorizon.Proofs.Binary64.Value
import RecedingHorizon.Proofs.Problem.Assemble
import RecedingHorizon.Proofs.Problem.Evaluate

/-!
Residuals of built problems. Without a profile they are the states and inputs themselves. A profile
appends one slot to the runtime parameters, and the segment that this slot selects is subtracted
from the states and inputs, entry by entry; the terminal residual is the part of the stage residual
that belongs to the states.
-/

namespace RecedingHorizon

variable {α : Type}

/-! ### Cost maps by index -/

namespace CostMap

variable {states inputs i : Nat} {r : Residual} {x u : List α}

theorem getElem?_residuals_stage (states inputs i : Nat) :
    (stage states inputs).residuals[i]? =
      if i < states then some { signal := .state i }
      else if i < states + inputs then some { signal := .input (i - states) }
      else none := by
  simp only [stage, List.getElem?_append, List.length_map, List.length_range, List.getElem?_map]
  split
  next hstate => simp [List.getElem?_range hstate]
  next hstate =>
    split
    next hinput => simp [List.getElem?_range (show i - states < inputs by omega)]
    next hinput => simp; omega

/-- Residual `i` of a stage is component `i` of the point. -/
theorem component?_of_stage (hr : (stage states inputs).residuals[i]? = some r)
    (hx : x.length = states) : r.signal.component? x u = (x ++ u)[i]? ∧ r.target = none := by
  rw [getElem?_residuals_stage] at hr
  split at hr
  next hstate =>
    cases hr
    exact ⟨(List.getElem?_append_left (hx.symm ▸ hstate)).symm, rfl⟩
  next hstate =>
    split at hr
    next hinput =>
      cases hr
      subst hx
      exact ⟨(List.getElem?_append_right (Nat.le_of_not_lt hstate)).symm, rfl⟩
    next => cases hr

variable [Sub α]

theorem value?_of_stage (hr : (stage states inputs).residuals[i]? = some r)
    (hx : x.length = states) (segment : Option (List α)) :
    r.value? x u segment = (x ++ u)[i]? := by
  obtain ⟨hcomponent, htarget⟩ := component?_of_stage hr hx
  rw [Residual.value?, htarget, hcomponent]

/-- Shifting subtracts component `i` of the segment. -/
theorem value?_of_shifted_stage (hr : (stage states inputs).shifted.residuals[i]? = some r)
    (hx : x.length = states) (segment : List α) :
    r.value? x u (some segment) = (List.zipWith (· - ·) (x ++ u) segment)[i]? := by
  rw [shifted, List.getElem?_mapIdx] at hr
  obtain ⟨unshifted, hunshifted, rfl⟩ := Option.map_eq_some_iff.1 hr
  have hcomponent : unshifted.signal.component? x u = (x ++ u)[i]? :=
    (component?_of_stage hunshifted hx).1
  rw [List.getElem?_zipWith]
  simp only [Residual.value?, hcomponent]
  cases (x ++ u)[i]? <;> cases htarget : segment[i]? <;> simp [htarget]

end CostMap

namespace Problem

section Scalars

variable [Scalar α]

/-- Values less a target of zeros. -/
theorem IsResidual.eq_map {map : CostMap} {n : Nat} {x u r values : List α}
    {segment : Option (List α)} (hr : IsResidual map (List.replicate n 0) x u segment r)
    (hlength : values.length = map.residuals.length)
    (hvalue : ∀ (i : Nat) (residual : Residual), map.residuals[i]? = some residual →
      residual.value? x u segment = values[i]?) : r = values.map (· - 0) := by
  apply List.ext_getElem?
  intro i
  rw [List.getElem?_map]
  by_cases hi : i < map.residuals.length
  · obtain ⟨y, c, hy, hc, hentry⟩ := hr.entry i _ (List.getElem?_eq_getElem hi)
    rw [hvalue i _ (List.getElem?_eq_getElem hi)] at hy
    have hzero : c = 0 := List.eq_of_mem_replicate (List.mem_of_getElem? hc)
    rw [hentry, hy, hzero]
    rfl
  · have hr' : r.length ≤ i := hr.length ▸ Nat.le_of_not_lt hi
    have hvalues : values.length ≤ i := hlength ▸ Nat.le_of_not_lt hi
    rw [List.getElem?_eq_none hr', List.getElem?_eq_none hvalues]
    rfl

variable {states inputs n : Nat} {x u r segment : List α}

theorem eq_of_isResidual_stage (hx : x.length = states) (hu : u.length = inputs)
    (hr : IsResidual (.stage states inputs) (List.replicate n 0) x u none r) :
    r = (x ++ u).map (· - 0) := by
  refine hr.eq_map ?_ fun i residual hi => CostMap.value?_of_stage hi hx none
  rw [List.length_append, hx, hu]
  exact (CostMap.length_stage states inputs).symm

theorem eq_of_isResidual_shifted (hx : x.length = states) (hu : u.length = inputs)
    (hsegment : states + inputs ≤ segment.length)
    (hr : IsResidual (CostMap.stage states inputs).shifted (List.replicate n 0) x u (some segment) r) :
    r = List.zipWith (fun y t => y - t - 0) (x ++ u) segment := by
  have hlength : (CostMap.stage states inputs).shifted.residuals.length = states + inputs :=
    (CostMap.length_shifted _).trans (CostMap.length_stage states inputs)
  have hvalues : r = (List.zipWith (· - ·) (x ++ u) segment).map (· - 0) := by
    refine hr.eq_map ?_ fun i residual hi => CostMap.value?_of_shifted_stage hi hx segment
    rw [List.length_zipWith, List.length_append, hx, hu, hlength]
    omega
  rw [hvalues, List.map_zipWith]

end Scalars

/-! ### Residuals of assembled problems -/

section Assembled

variable [Scalar α] [Spectral α] [LawfulScalar α] {plant : Plant} {design : Design α}
  {point : OperatingPoint α} {options : SolverOptions α} {profile : Profile α} {x u q : List α}

omit [LawfulScalar α] in
/-- Every state and input of a shifted problem has a target, so a validation has found as many
components in the segments. -/
theorem sumFits_assembled {profile : Option (Profile α)}
    (hp : (assembled plant design point options profile).WellFormed) :
    (assembled plant design point options profile).SumFits := by
  cases profile with
  | none => exact .inl rfl
  | some profile =>
      refine .inr (lt_of_not_ge fun hlarge => ?_)
      have hwraps : sizeSum plant.states plant.inputs < plant.states + plant.inputs :=
        (sizeSum_lt _ _).trans_le hlarge
      have hlength : (CostMap.stage plant.states plant.inputs).shifted.residuals.length =
          plant.states + plant.inputs :=
        (CostMap.length_shifted _).trans (CostMap.length_stage _ _)
      -- the residual whose target is the first component that the segments do not have
      have hindex : sizeSum plant.states plant.inputs <
          (CostMap.stage plant.states plant.inputs).shifted.residuals.length := hlength ▸ hwraps
      have hlt := hp.cost.stageMap.target _ (List.getElem_mem hindex)
        (sizeSum plant.states plant.inputs) (by simp [CostMap.shifted])
      exact lt_irrefl _ hlt

/-- Without a profile nothing is subtracted. -/
theorem residuals_of_none (hp : (assembled plant design point options none).WellFormed)
    (hx : x.length = plant.states) (hu : u.length = plant.inputs)
    (hq : q.length = (assembled plant design point options none).dimensions.parameters) :
    (assembled plant design point options none).stageResidual x u q =
        .ok ((x ++ u).map (· - 0)) ∧
      (assembled plant design point options none).terminalResidual x q =
        .ok (x.map (· - 0)) := by
  obtain ⟨r, hr, hstage⟩ := exists_stageResidual hp hx hu hq
  obtain ⟨r', hr', hterminal⟩ :=
    exists_terminalResidual hp (covers_terminalMap hp (sumFits_assembled hp)) hx hq
  have heq : r = (x ++ u).map (· - 0) := eq_of_isResidual_stage hx hu hstage
  have heq' : r' = (x ++ []).map (· - 0) := eq_of_isResidual_stage hx List.length_nil hterminal
  rw [List.append_nil] at heq'
  exact ⟨heq ▸ hr, heq' ▸ hr'⟩

/-- The last slot selects the segment that is subtracted from both residuals. -/
theorem residuals_of_some (hp : (assembled plant design point options (some profile)).WellFormed)
    (hx : x.length = plant.states) (hu : u.length = plant.inputs)
    (hq : q.length = (assembled plant design point options (some profile)).dimensions.parameters) :
    ∃ selector segment, q[point.parameters.length]? = some selector ∧
      profile.select? selector = some segment ∧ segment.length = plant.states + plant.inputs ∧
      (assembled plant design point options (some profile)).stageResidual x u q =
        .ok (List.zipWith (fun y t => y - t - 0) (x ++ u) segment) ∧
      (assembled plant design point options (some profile)).terminalResidual x q =
        .ok (List.zipWith (fun y t => y - t - 0) x segment) := by
  have hslot : point.parameters.length < q.length := by
    rw [hq]
    exact hp.reference.selector _ rfl
  have hsum := sumFits_assembled hp
  obtain ⟨segment, hselect, hlength⟩ :=
    Profile.select?_eq_some (hp.reference.profile _ rfl) q[point.parameters.length]
  rw [sizeSum_of_lt (hsum.resolve_left nofun)] at hlength
  have hactive : (assembled plant design point options (some profile)).segment? q = some segment := by
    change (some (Binding.mk profile point.parameters.length)).bind _ = _
    simp [hslot, hselect]
  obtain ⟨r, hr, hstage⟩ := exists_stageResidual hp hx hu hq
  obtain ⟨r', hr', hterminal⟩ := exists_terminalResidual hp (covers_terminalMap hp hsum) hx hq
  rw [hactive] at hstage hterminal
  have hle : plant.states + plant.inputs ≤ segment.length := hlength.ge
  have heq : r = List.zipWith (fun y t => y - t - 0) (x ++ u) segment :=
    eq_of_isResidual_shifted hx hu hle hstage
  have heq' : r' = List.zipWith (fun y t => y - t - 0) (x ++ []) segment :=
    eq_of_isResidual_shifted hx List.length_nil ((Nat.le_add_right _ _).trans hle) hterminal
  rw [List.append_nil] at heq'
  exact ⟨_, segment, List.getElem?_eq_getElem hslot, hselect, hlength, heq ▸ hr, heq' ▸ hr'⟩

end Assembled

/-! ### Built problems -/

theorem take_zipWith_append {β γ : Type} (f : α → β → γ) (x u : List α) (segment : List β) :
    (List.zipWith f (x ++ u) segment).take x.length = List.zipWith f x segment := by
  have hlength : (List.zipWith f x segment).length ≤ x.length := by
    rw [List.length_zipWith]
    exact Nat.min_le_left _ _
  rw [List.take_zipWith, List.take_left, ← List.take_of_length_le hlength, List.take_zipWith,
    List.take_length]

/-- The residuals are the states and inputs themselves, less zeros. -/
structure Uncentred (plant : Plant) (point : OperatingPoint Float) (p : Problem Float) : Prop where
  parameters : p.parameters = point.parameters
  slots : p.dimensions.parameters = plant.parameters
  reference : p.reference = none
  residuals : ∀ x u q, x.length = plant.states → u.length = plant.inputs →
    q.length = p.dimensions.parameters →
    p.stageResidual x u q = .ok ((x ++ u).map (· - 0)) ∧ p.terminalResidual x q = .ok (x.map (· - 0))

/-- The runtime parameters have one more slot, the last, and the segment at the floor of its value,
kept inside the profile, is subtracted from the states and inputs. -/
structure CentredOn (plant : Plant) (point : OperatingPoint Float) (profile : Profile Float)
    (p : Problem Float) : Prop where
  parameters : p.parameters = point.parameters ++ [0]
  slots : p.dimensions.parameters = plant.parameters + 1
  reference : p.reference = some ⟨profile, plant.parameters⟩
  residuals : ∀ x u q, x.length = plant.states → u.length = plant.inputs →
    q.length = p.dimensions.parameters →
    ∃ selector segment, q[plant.parameters]? = some selector ∧
      profile.segments[Binary64.clampedFloor (profile.segments.length - 1) selector]? =
        some segment ∧
      segment.length = plant.states + plant.inputs ∧
      p.stageResidual x u q = .ok (List.zipWith (fun y t => y - t - 0) (x ++ u) segment) ∧
      p.terminalResidual x q = .ok (List.zipWith (fun y t => y - t - 0) x segment)

section Built

variable [Spectral Float] {plant : Plant} {design : Design Float} {point : OperatingPoint Float}
  {setup : Setup Float} {p : Problem Float} {profile : Profile Float} {x u q q' : List Float}

theorem uncentred_of_build (hbuild : build plant design point setup = .ok p)
    (hprofile : setup.profile = none) : p.Uncentred plant point := by
  obtain ⟨hp, hparameters, options, hassembled⟩ := assembled_of_build hbuild
  rw [hprofile] at hassembled
  subst hassembled
  exact ⟨rfl, hparameters, rfl, fun x u q hx hu hq => residuals_of_none hp hx hu hq⟩

theorem centredOn_of_build (hbuild : build plant design point setup = .ok p)
    (hprofile : setup.profile = some profile) : p.CentredOn plant point profile := by
  obtain ⟨hp, hparameters, options, hassembled⟩ := assembled_of_build hbuild
  rw [hprofile] at hassembled
  subst hassembled
  refine ⟨rfl, ?_, ?_, fun x u q hx hu hq => ?_⟩
  · rw [← hparameters]
    exact List.length_append
  · rw [← hparameters]
    rfl
  · obtain ⟨selector, segment, hselector, hselect, hsegment⟩ := residuals_of_some hp hx hu hq
    rw [hparameters] at hselector
    refine ⟨selector, segment, hselector, ?_, hsegment⟩
    rw [← Binary64.floorUpTo_eq_clampedFloor]
    exact hselect

theorem exists_residual_take (hbuild : build plant design point setup = .ok p)
    (hx : x.length = plant.states) (hu : u.length = plant.inputs)
    (hq : q.length = p.dimensions.parameters) :
    ∃ r, p.stageResidual x u q = .ok r ∧ p.terminalResidual x q = .ok (r.take plant.states) := by
  rw [← hx]
  cases hprofile : setup.profile with
  | none =>
      obtain ⟨hstage, hterminal⟩ := (uncentred_of_build hbuild hprofile).residuals x u q hx hu hq
      refine ⟨_, hstage, ?_⟩
      rw [← List.map_take, List.take_left, hterminal]
  | some profile =>
      obtain ⟨_, segment, -, -, -, hstage, hterminal⟩ :=
        (centredOn_of_build hbuild hprofile).residuals x u q hx hu hq
      refine ⟨_, hstage, ?_⟩
      rw [take_zipWith_append, hterminal]

/-- Only the selector has an influence on the segment. -/
theorem segment?_congr (hbuild : build plant design point setup = .ok p)
    (hslot : q[plant.parameters]? = q'[plant.parameters]?) : p.segment? q = p.segment? q' := by
  cases hprofile : setup.profile with
  | none => simp only [segment?, (uncentred_of_build hbuild hprofile).reference, Option.bind_none]
  | some profile =>
      simp only [segment?, (centredOn_of_build hbuild hprofile).reference, Option.bind_some, hslot]

/-- A problem that was built is centred where its setup says. The terminal residual is the part of
the stage residual that belongs to the states, whatever the inputs are, and no runtime parameter but
the one that a profile appends has an influence on either. -/
theorem centred_of_build (hbuild : build plant design point setup = .ok p) :
    (setup.profile = none → p.Uncentred plant point) ∧
    (∀ profile, setup.profile = some profile → p.CentredOn plant point profile) ∧
    (∀ x u q, x.length = plant.states → u.length = plant.inputs →
      q.length = p.dimensions.parameters →
      ∃ r, p.stageResidual x u q = .ok r ∧ p.terminalResidual x q = .ok (r.take plant.states)) ∧
    ∀ x u q q', q.length = p.dimensions.parameters → q'.length = p.dimensions.parameters →
      q[plant.parameters]? = q'[plant.parameters]? →
      p.stageResidual x u q = p.stageResidual x u q' ∧
        p.terminalResidual x q = p.terminalResidual x q' := by
  obtain ⟨hp, -⟩ := assembled_of_build hbuild
  refine ⟨uncentred_of_build hbuild, fun profile => centredOn_of_build hbuild, ?_, ?_⟩
  · exact fun x u q hx hu hq => exists_residual_take hbuild hx hu hq
  · intro x u q q' hq hq' hslot
    have hsegment := segment?_congr hbuild hslot
    exact ⟨stageResidual_congr hp hq hq' hsegment, terminalResidual_congr hp hq hq' hsegment⟩

end Built

/-- At the upper of the two set-points, which every selector from one on picks. -/
theorem centred_of_build_tank :
    ∃ p, build Tank.plant Tank.design Tank.point Tank.setup = .ok p ∧ p.parameters = [0] ∧
      p.stageResidual [1.5] [0.5] [1.75] = .ok [1.5 - 2 - 0, 0.5 - 0.5 - 0] := by
  obtain ⟨p, hbuild⟩ := exists_build (show 1 + 1 < 2 ^ 64 by decide)
    (Design.derived_of_derive Tank.derive_design) Tank.consistent_design
  obtain ⟨-, hcentred, -⟩ := centred_of_build hbuild
  obtain ⟨hparameters, hslots, -, hresiduals⟩ := hcentred Tank.setPoints rfl
  obtain ⟨selector, segment, hselector, hsegment, -, hstage, -⟩ :=
    hresiduals [1.5] [0.5] [1.75] rfl rfl hslots.symm
  have hone : Binary64.clampedFloor 1 1.75 = 1 := by
    rw [← Binary64.floorUpTo_eq_clampedFloor]
    decide +kernel
  cases hselector
  change Tank.setPoints.segments[Binary64.clampedFloor 1 1.75]? = _ at hsegment
  rw [hone] at hsegment
  cases hsegment
  exact ⟨p, hbuild, hparameters, hstage⟩

end Problem

end RecedingHorizon
