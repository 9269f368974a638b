import Mathlib
import RecedingHorizon.Proofs.Design

/-!
Which data a design can be derived from, and what is said of data that it cannot be derived from. A
derivation has nine requirements and checks them one after the other, so it is a run of nine checks
followed by a design that no check has a part in. A run of checks fails with the error of the first
check that fails, and a check of a list names the first entry that is at fault.
-/

namespace RecedingHorizon

/-! ### The first of several errors -/

/-- A run of checks fails with the error of the first one that fails. -/
theorem forM_eq_error {ε β : Type} {f : β → Except ε Unit} {xs : List β} {e : ε} :
    xs.forM f = .error e ↔
      ∃ before x after, xs = before ++ x :: after ∧ (∀ y ∈ before, f y = .ok ()) ∧
        f x = .error e := by
  induction xs with
  | nil =>
      refine iff_of_false nofun ?_
      rintro ⟨before, x, after, hsplit, -⟩
      exact List.append_ne_nil_of_right_ne_nil before (List.cons_ne_nil x after) hsplit.symm
  | cons first rest ih =>
      refine Iff.trans (bind_eq_error (f := fun _ => rest.forM f)) ?_
      rw [ih]
      constructor
      · rintro (hfirst | ⟨⟨⟩, hfirst, before, x, after, rfl, hbefore, hx⟩)
        · exact ⟨[], first, rest, rfl, nofun, hfirst⟩
        · exact ⟨first :: before, x, after, rfl, List.forall_mem_cons.2 ⟨hfirst, hbefore⟩, hx⟩
      · rintro ⟨before, x, after, hsplit, hbefore, hx⟩
        cases before with
        | nil =>
            obtain ⟨rfl, rfl⟩ := List.cons.inj hsplit
            exact .inl hx
        | cons y before =>
            obtain ⟨rfl, rfl⟩ := List.cons.inj hsplit
            rw [List.forall_mem_cons] at hbefore
            exact .inr ⟨(), hbefore.1, before, x, after, rfl, hbefore.2, hx⟩

theorem ite_error_eq_ok {ε : Type} {bad : Prop} [Decidable bad] {e : ε} :
    (if bad then .error e else .ok () : Except ε Unit) = .ok () ↔ ¬ bad := by
  split <;> simp [*]

theorem ite_error_eq_error {ε : Type} {bad : Prop} [Decidable bad] {e e' : ε} :
    (if bad then .error e else .ok () : Except ε Unit) = .error e' ↔ bad ∧ e = e' := by
  split <;> simp [*]

theorem checkDimension_eq_error {α : Type} {field : String} {expected actual : Nat}
    {e : ValidationError α} :
    checkDimension field expected actual = .error e ↔
      expected ≠ actual ∧ .dimension field expected actual = e := by
  unfold checkDimension
  split <;> simp [*]

section Scalars

variable {α : Type} [Scalar α] {field : String} {v : List α} {e : ValidationError α}

theorem checkPositive_eq_error {x : α} :
    checkPositive field x = .error e ↔
      ¬ (Scalar.isFinite x = true ∧ ¬ x ≤ 0) ∧ .notPositive field x = e := by
  unfold checkPositive
  split <;> simp [*]

theorem checkFinite_eq_error :
    checkFinite field v = .error e ↔
      ∃ index x, IsFirstFault (Scalar.isFinite · = true) v index x ∧
        .notFinite field index = e := by
  unfold checkFinite
  split
  next index hfault =>
    obtain ⟨x, hfirst⟩ := findIdx?_not_eq_some.1 hfault
    rw [Except.error.injEq]
    constructor
    · exact fun he => ⟨index, x, hfirst, he⟩
    · rintro ⟨other, y, hother, rfl⟩
      rw [(hother.unique hfirst).1]
  next hnone =>
    refine iff_of_false nofun ?_
    rintro ⟨index, x, hfirst, -⟩
    exact hfirst.not_forall (findIdx?_not_eq_none.1 hnone)

/-- What is wrong with a nominal value that is no unit. -/
def unitError (field : String) (index : Nat) (x : α) : ValidationError α :=
  if Scalar.isFinite x = true then .zeroEntry field index else .notFinite field index

theorem unitFault?_of_not_isUnit {index : Nat} {x : α} (hx : ¬ Scalar.IsUnit x) :
    unitFault? field index x = some (unitError field index x) := by
  unfold unitFault? unitError
  split
  next hinfinite => rw [if_neg (by simp [hinfinite])]
  next hfinite =>
    have hfinite : Scalar.isFinite x = true := by simpa using hfinite
    have hzero : Scalar.isZero x = true := by
      by_contra hnonzero
      exact hx ⟨hfinite, by simpa using hnonzero⟩
    rw [if_pos hzero, if_pos hfinite]

theorem inverseSquares_eq_error :
    inverseSquares field v = .error e ↔
      ∃ index x, IsFirstFault Scalar.IsUnit v index x ∧ unitError field index x = e := by
  unfold inverseSquares
  split
  next fault hfault =>
    obtain ⟨before, ⟨x, index⟩, after, hsplit, hx, hbefore⟩ := List.findSome?_eq_some_iff.1 hfault
    have hentries (i : Nat) : (before ++ (x, index) :: after)[i]? = v[i]?.map fun y => (y, i) := by
      rw [← hsplit, List.getElem?_zipIdx]
      simp
    have hplace : (before ++ (x, index) :: after)[before.length]? = some (x, index) := by
      simp
    obtain ⟨y, hy, hpair⟩ := Option.map_eq_some_iff.1 ((hentries before.length).symm.trans hplace)
    obtain ⟨rfl, rfl⟩ := Prod.mk.inj hpair
    have hfirst : IsFirstFault Scalar.IsUnit v before.length y := by
      refine ⟨hy, fun hunit => ?_, fun i hi z hz => ?_⟩
      · cases hx.symm.trans (unitFault?_eq_none.2 hunit)
      · have hearlier : before[i]? = some (z, i) := by
          rw [← List.getElem?_append_left hi, hentries, hz]
          rfl
        exact unitFault?_eq_none.1 (hbefore _ (List.mem_of_getElem? hearlier))
    have hfault : unitError field before.length y = fault :=
      Option.some.inj ((unitFault?_of_not_isUnit hfirst.fault).symm.trans hx)
    rw [Except.error.injEq]
    constructor
    · exact fun he => ⟨_, y, hfirst, hfault.trans he⟩
    · rintro ⟨other, z, hother, rfl⟩
      obtain ⟨rfl, rfl⟩ := hother.unique hfirst
      exact hfault.symm
  next hnone =>
    refine iff_of_false nofun ?_
    rintro ⟨index, x, hfirst, -⟩
    have hentry : (x, index) ∈ v.zipIdx := List.mem_zipIdx_iff_getElem?.2 hfirst.entry
    have hunit := List.findSome?_eq_none_iff.1 hnone _ hentry
    exact hfirst.fault (unitFault?_eq_none.1 hunit)

theorem units_eq_ok :
    (do let _ ← inverseSquares field v; .ok () : Checked α Unit) = .ok () ↔
      ∀ x ∈ v, Scalar.IsUnit x := by
  rw [bind_eq_ok]
  constructor
  · rintro ⟨m, hm, -⟩
    exact (inverseSquares_eq_ok.1 hm).1
  · exact fun hv => ⟨_, inverseSquares_eq_ok.2 ⟨hv, rfl⟩, rfl⟩

theorem units_eq_error :
    (do let _ ← inverseSquares field v; .ok () : Checked α Unit) = .error e ↔
      ∃ index x, IsFirstFault Scalar.IsUnit v index x ∧ unitError field index x = e := by
  rw [bind_eq_error, ← inverseSquares_eq_error]
  exact or_iff_left nofun

omit [Scalar α] in
/-- A list of equal entries is at fault in its first one. -/
theorem isFirstFault_map_const {P : α → Prop} {input : List α} {x : α}
    (hne : input ≠ []) (hx : ¬ P x) : IsFirstFault P (input.map fun _ => x) 0 x := by
  obtain ⟨u, rest, rfl⟩ := List.exists_cons_of_ne_nil hne
  exact ⟨rfl, hx, nofun⟩

end Scalars

/-! ### Requirements -/

/-- What a derivation asks for. -/
inductive Requirement where
  | intervals
  | horizon
  | samplingPeriod
  | stateUnits
  | inputUnits
  | terminalWeight
  | scaleCount
  | lowerScale
  | upperScales

namespace Requirement

/-- The order in which the requirements are checked. -/
def inOrder : List Requirement :=
  [.intervals, .horizon, .samplingPeriod, .stateUnits, .inputUnits, .terminalWeight, .scaleCount,
    .lowerScale, .upperScales]

theorem mem_inOrder (r : Requirement) : r ∈ inOrder := by
  cases r <;> simp [inOrder]

variable [Spectral Float] (state input : List Float) (terminalWeight : Matrix Float)
  (tuning : Tuning Float)

def Met : Requirement → Prop
  | .intervals => 0 < tuning.intervals
  | .horizon => tuning.horizon.isFinite = true ∧ 0 < tuning.horizon
  | .samplingPeriod => tuning.samplingPeriod.isFinite = true ∧ 0 < tuning.samplingPeriod
  | .stateUnits => ∀ x ∈ state, Scalar.IsUnit x
  | .inputUnits => ∀ u ∈ input, Scalar.IsUnit u
  | .terminalWeight => checkWeight "P" state.length terminalWeight = .ok ()
  | .scaleCount => tuning.upperScales.length = input.length
  -- without inputs there is no lower bound to scale
  | .lowerScale => input ≠ [] → tuning.lowerScale.isFinite = true
  | .upperScales => ∀ scale ∈ tuning.upperScales, scale.isFinite = true

/-- The error that tells of a requirement that is not met. -/
def Reports (e : ValidationError Float) : Requirement → Prop
  | .intervals => .notPositive "N" 0 = e
  | .horizon => .notPositive "Tf" tuning.horizon = e
  | .samplingPeriod => .notPositive "dt" tuning.samplingPeriod = e
  | .stateUnits =>
    ∃ index x, IsFirstFault Scalar.IsUnit state index x ∧ unitError "xs" index x = e
  | .inputUnits =>
    ∃ index u, IsFirstFault Scalar.IsUnit input index u ∧ unitError "us" index u = e
  | .terminalWeight => checkWeight "P" state.length terminalWeight = .error e
  | .scaleCount =>
    .dimension "input_upper_scale" input.length tuning.upperScales.length = e
  | .lowerScale => .notFinite "input_lower_scale" 0 = e
  | .upperScales =>
    ∃ index scale, IsFirstFault (Float.isFinite · = true) tuning.upperScales index scale ∧
      .notFinite "input_upper_scale" index = e

/-- The step of a derivation that checks a requirement. -/
def check : Requirement → Checked Float Unit
  | .intervals => if tuning.intervals = 0 then .error (.notPositive "N" 0) else .ok ()
  | .horizon => checkPositive "Tf" tuning.horizon
  | .samplingPeriod => checkPositive "dt" tuning.samplingPeriod
  | .stateUnits => do
    let _ ← inverseSquares "xs" state
    .ok ()
  | .inputUnits => do
    let _ ← inverseSquares "us" input
    .ok ()
  | .terminalWeight => checkWeight "P" state.length terminalWeight
  | .scaleCount => checkDimension "input_upper_scale" input.length tuning.upperScales.length
  | .lowerScale => checkFinite "input_lower_scale" (input.map fun _ => tuning.lowerScale)
  | .upperScales => checkFinite "input_upper_scale" tuning.upperScales

variable {state input terminalWeight tuning} {r : Requirement} {e : ValidationError Float}

theorem check_eq_ok :
    r.check state input terminalWeight tuning = .ok () ↔ r.Met state input terminalWeight tuning := by
  cases r with
  | intervals => exact ite_error_eq_ok.trans Nat.pos_iff_ne_zero.symm
  | horizon => exact checkPositive_eq_ok.trans Binary64.isFinite_and_not_le_iff
  | samplingPeriod => exact checkPositive_eq_ok.trans Binary64.isFinite_and_not_le_iff
  | stateUnits => exact units_eq_ok
  | inputUnits => exact units_eq_ok
  | terminalWeight => exact Iff.rfl
  | scaleCount => exact checkDimension_eq_ok.trans eq_comm
  | lowerScale =>
      refine checkFinite_eq_ok.trans ?_
      rw [List.forall_mem_map]
      refine ⟨fun h hne => ?_, fun h u hu => h (List.ne_nil_of_mem hu)⟩
      exact h _ (List.getLast_mem hne)
  | upperScales => exact checkFinite_eq_ok

theorem check_eq_error :
    r.check state input terminalWeight tuning = .error e ↔
      ¬ r.Met state input terminalWeight tuning ∧ r.Reports state input terminalWeight tuning e := by
  have hfaulty {P : Float → Prop} {v : List Float} {error : Nat → Float → ValidationError Float}
      (h : ∃ index x, IsFirstFault P v index x ∧ error index x = e) : ¬ ∀ x ∈ v, P x := by
    obtain ⟨index, x, hfirst, -⟩ := h
    exact hfirst.not_forall
  cases r with
  | intervals => exact ite_error_eq_error.trans (and_congr_left' Nat.pos_iff_ne_zero.not_left.symm)
  | horizon =>
      exact checkPositive_eq_error.trans (and_congr_left' Binary64.isFinite_and_not_le_iff.not)
  | samplingPeriod =>
      exact checkPositive_eq_error.trans (and_congr_left' Binary64.isFinite_and_not_le_iff.not)
  | stateUnits => exact units_eq_error.trans (and_iff_right_of_imp hfaulty).symm
  | inputUnits => exact units_eq_error.trans (and_iff_right_of_imp hfaulty).symm
  | terminalWeight =>
      refine (and_iff_right_of_imp fun herror hok => ?_).symm
      cases hok.symm.trans herror
  | scaleCount => exact checkDimension_eq_error.trans (and_congr_left' ne_comm)
  | lowerScale =>
      refine checkFinite_eq_error.trans ?_
      constructor
      · rintro ⟨index, x, hfirst, rfl⟩
        obtain ⟨u, hu, rfl⟩ := List.mem_map.1 hfirst.mem
        have hne : input ≠ [] := List.ne_nil_of_mem hu
        obtain ⟨rfl, -⟩ := hfirst.unique (isFirstFault_map_const hne hfirst.fault)
        exact ⟨fun hmet => hfirst.fault (hmet hne), rfl⟩
      · rintro ⟨hunmet, rfl⟩
        obtain ⟨hne, hinfinite⟩ := Classical.not_imp.1 hunmet
        exact ⟨0, _, isFirstFault_map_const hne hinfinite, rfl⟩
  | upperScales => exact checkFinite_eq_error.trans (and_iff_right_of_imp hfaulty).symm

end Requirement

/-! ### Derivations -/

namespace Design

variable {state input : List Float} {terminalWeight : Matrix Float} {tuning : Tuning Float}

/-- A derivation checks its requirements in order, and has nothing else to fail for. -/
theorem derive_eq_forM [Spectral Float] :
    derive state input terminalWeight tuning = (do
      Requirement.inOrder.forM (Requirement.check state input terminalWeight tuning)
      .ok (normalized state input terminalWeight tuning)) := by
  have hunits {β : Type} (field : String) (v : List Float) (f : Matrix Float → Checked Float β) :
      (inverseSquares field v >>= f) =
        (do let _ ← inverseSquares field v; .ok ()) >>= fun _ =>
          f (Matrix.diagonal (v.map fun x => 1 / (x * x))) := by
    cases h : inverseSquares field v with
    | error => rfl
    | ok m =>
        obtain ⟨-, rfl⟩ := inverseSquares_eq_ok.1 h
        rfl
  unfold derive
  rw [hunits "xs", hunits "us"]
  simp only [Requirement.inOrder, List.forM_eq_forM, List.forM_cons, List.forM_nil,
    Requirement.check, bind_assoc]
  split
  next => rfl
  next => rfl

/-- The weight of unit cost for a deviation by a nominal value. -/
structure IsInverseSquares (v : List Float) (m : Matrix Float) : Prop where
  rows : m.rows = v.length
  cols : m.cols = v.length
  diagonal : ∀ (i : Fin m.rows) (j : Fin m.cols), i.val = j.val →
    ∀ x, v[i.val]? = some x → m.get i j = 1 / (x * x)
  beside : ∀ (i : Fin m.rows) (j : Fin m.cols), i.val ≠ j.val → m.get i j = 0

theorem isInverseSquares_diagonal (v : List Float) :
    IsInverseSquares v (Matrix.diagonal (v.map fun x => 1 / (x * x))) where
  rows := List.length_map _
  cols := List.length_map _
  diagonal i j hij x hx := by
    obtain ⟨hi, rfl⟩ := List.getElem?_eq_some_iff.1 hx
    have hentry := (Matrix.get_diagonal (v.map fun x => 1 / (x * x)) i j).trans
      (if_pos (Fin.ext hij))
    exact hentry.trans (List.getElem_map _)
  beside := (Matrix.isDiagonal_diagonal _).zero

/-- The design of the given data, entry by entry. -/
structure Normalizes (state input : List Float) (terminalWeight : Matrix Float)
    (tuning : Tuning Float) (design : Design Float) : Prop where
  stateWeight : IsInverseSquares state design.stateWeight
  inputWeight : IsInverseSquares input design.inputWeight
  terminalWeight : design.terminalWeight = terminalWeight
  lowerLength : design.lowerBounds.length = input.length
  lower : ∀ (i : Nat) (u : Float), input[i]? = some u →
    design.lowerBounds[i]? = some (tuning.lowerScale * u)
  upperLength : design.upperBounds.length = input.length
  upper : ∀ (i : Nat) (scale u : Float), tuning.upperScales[i]? = some scale →
    input[i]? = some u → design.upperBounds[i]? = some (scale * u)
  horizon : design.horizon = tuning.horizon
  intervals : design.intervals = tuning.intervals
  samplingPeriod : design.samplingPeriod = tuning.samplingPeriod
  linear : design.linear = tuning.linear

theorem normalizes_normalized (hscales : tuning.upperScales.length = input.length) :
    (normalized state input terminalWeight tuning).Normalizes state input terminalWeight tuning where
  stateWeight := isInverseSquares_diagonal state
  inputWeight := isInverseSquares_diagonal input
  terminalWeight := rfl
  lowerLength := List.length_map _
  lower i u hu := by simp [normalized, hu]
  upperLength := by simp [normalized, hscales]
  upper i scale u hscale hu := by simp [normalized, List.getElem?_zipWith, hscale, hu]
  horizon := rfl
  intervals := rfl
  samplingPeriod := rfl
  linear := rfl

/-- A design can be derived exactly from data that meet every requirement. It weighs deviations in
units of the nominal values and bounds the inputs by multiples of them. All other data are refused
for the first requirement in order that they do not meet. -/
theorem derive_by_requirements [Spectral Float] (state input : List Float)
    (terminalWeight : Matrix Float) (tuning : Tuning Float) :
    ((∃ design, derive state input terminalWeight tuning = .ok design) ↔
      ∀ r : Requirement, r.Met state input terminalWeight tuning) ∧
    (∀ design, derive state input terminalWeight tuning = .ok design →
      design.Normalizes state input terminalWeight tuning) ∧
    ∀ e, derive state input terminalWeight tuning = .error e ↔
      ∃ before r after, Requirement.inOrder = before ++ r :: after ∧
        (∀ q ∈ before, q.Met state input terminalWeight tuning) ∧
        ¬ r.Met state input terminalWeight tuning ∧
        r.Reports state input terminalWeight tuning e := by
  have hok (design : Design Float) :
      derive state input terminalWeight tuning = .ok design ↔
        (∀ r : Requirement, r.Met state input terminalWeight tuning) ∧
          normalized state input terminalWeight tuning = design := by
    rw [derive_eq_forM, bind_unit_eq_ok, forM_eq_ok, Except.ok.injEq]
    simp only [Requirement.check_eq_ok, Requirement.mem_inOrder, forall_const]
  refine ⟨?_, fun design hderive => ?_, fun e => ?_⟩
  · simp only [hok, exists_and_left, exists_eq', and_true]
  · obtain ⟨hmet, rfl⟩ := (hok design).1 hderive
    exact normalizes_normalized (hmet .scaleCount)
  · rw [derive_eq_forM, bind_eq_error, or_iff_left (by rintro ⟨_, -, ⟨⟩⟩), forM_eq_error]
    simp only [Requirement.check_eq_ok, Requirement.check_eq_error]

/-- With two faults in the states, two in the inputs and a weight that is too small, it is the first
fault in the states that is named. -/
theorem derive_by_requirements_faulty :
    derive [1, -0.0, 0 / 0] [0, 1 / 0] ⟨1, 1, [1], rfl⟩ Tuning.standard =
      .error (.zeroEntry "xs" 1) := by
  have hzero : ¬ Scalar.IsUnit (-0.0 : Float) := fun hunit => absurd hunit.nonzero (by decide)
  have hfirst : IsFirstFault Scalar.IsUnit ([1, -0.0, 0 / 0] : List Float) 1 (-0.0) := by
    refine ⟨rfl, hzero, fun i hi x hx => ?_⟩
    obtain rfl : i = 0 := by omega
    obtain rfl : 1 = x := Option.some.inj hx
    exact ⟨by decide, by decide⟩
  refine ((derive_by_requirements _ _ _ _).2.2 _).2
    ⟨[.intervals, .horizon, .samplingPeriod], .stateUnits, _, rfl, ?_, hfirst.not_forall,
      1, _, hfirst, rfl⟩
  simp only [List.forall_mem_cons, List.not_mem_nil, false_imp_iff, implies_true, and_true]
  exact ⟨Nat.succ_pos 15, ⟨by decide, by decide⟩, ⟨by decide, by decide⟩⟩

end Design

end RecedingHorizon
