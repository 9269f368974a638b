import Mathlib
import RecedingHorizon.CostMap
import RecedingHorizon.Proofs.Check

/-!
Shifted cost maps. The value of a map without a target is read off its signals alone, so shifting a
map does not change it. With a target, the values of a shifted map are those of the map itself less
the entries of the target, place by place, and what is reported where there are none is what is
wrong with the first residual that has none.
-/

namespace RecedingHorizon

variable {α : Type}

/-! ### Faults -/

/-- What is wrong with an index that is not inside a vector. -/
def rangeFault? (field : String) (v : List α) (index : Nat) : Option (ValidationError α) :=
  if index < v.length then none else some (.outOfRange field index v.length)

theorem component_eq_error {field : String} {v : List α} {index : Nat} {e : ValidationError α} :
    component field v index = .error e ↔ rangeFault? field v index = some e := by
  by_cases hindex : index < v.length
  · simp [component, rangeFault?, hindex]
  · simp [component, rangeFault?, hindex]

/-- What is wrong with a signal that a point does not have. Without inputs, no input is missed. -/
def Signal.fault? (x : List α) (u : Option (List α)) : Signal → Option (ValidationError α)
  | .state index => rangeFault? "x" x index
  | .input index => u.bind fun u => rangeFault? "u" u index

/-- What is wrong with the residual at a position, once it is shifted to that component of the
target. The signal is read before the target. -/
def Residual.fault? (x : List α) (u : Option (List α)) (target : List α) (position : Nat)
    (r : Residual) : Option (ValidationError α) :=
  (r.signal.fault? x u).or (rangeFault? "reference" target position)

variable [Scalar α] {x : List α} {u : Option (List α)} {target : List α}

theorem Signal.value_eq_error {s : Signal} {e : ValidationError α} :
    s.value x u = .error e ↔ s.fault? x u = some e := by
  cases s with
  | state index => exact component_eq_error
  | input index =>
      cases u with
      | none => exact iff_of_false nofun nofun
      | some u => exact component_eq_error

namespace Residual

variable {r : Residual}

/-- Without a target nothing is subtracted, whether or not the residual is shifted. -/
theorem evaluate_none (r : Residual) : r.evaluate x u none = r.signal.value x u := by
  unfold evaluate
  cases r.signal.value x u <;> cases r.target <;> rfl

theorem evaluate_shifted (position : Nat) :
    ({ r with target := some position } : Residual).evaluate x u (some target) = (do
      let value ← r.signal.value x u
      let shift ← component "reference" target position
      pure (value - shift)) := rfl

theorem evaluate_shifted_eq_ok {position : Nat} {z : α} :
    ({ r with target := some position } : Residual).evaluate x u (some target) = .ok z ↔
      ∃ y shift, r.signal.value x u = .ok y ∧ target[position]? = some shift ∧ y - shift = z := by
  simp only [evaluate_shifted, bind_eq_ok, component_eq_ok, pure_eq_ok, exists_and_left]

theorem evaluate_shifted_eq_error {position : Nat} {e : ValidationError α} :
    ({ r with target := some position } : Residual).evaluate x u (some target) = .error e ↔
      r.fault? x u target position = some e := by
  rw [evaluate_shifted, fault?]
  cases hvalue : r.signal.value x u with
  | error e' =>
      rw [Signal.value_eq_error.1 hvalue, Option.some_or, Option.some_inj]
      exact Except.error.injEq e' e ▸ Iff.rfl
  | ok y =>
      rw [(exists_ok_iff fun _ => Signal.value_eq_error).1 ⟨y, hvalue⟩, Option.none_or,
        ← component_eq_error, ok_bind, bind_eq_error]
      exact or_iff_left nofun

end Residual

namespace CostMap

variable {m : CostMap}

theorem getElem?_residuals_shifted (m : CostMap) (i : Nat) :
    m.shifted.residuals[i]? = m.residuals[i]?.map fun r => { r with target := some i } :=
  List.getElem?_mapIdx

theorem map_signal_shifted (m : CostMap) :
    m.shifted.residuals.map Residual.signal = m.residuals.map Residual.signal := by
  refine List.ext_getElem? fun i => ?_
  simp [getElem?_residuals_shifted, Function.comp_def]

theorem shifted_shifted (m : CostMap) : m.shifted.shifted = m.shifted := by
  refine congrArg CostMap.mk (List.ext_getElem? fun i => ?_)
  simp [shifted, Function.comp_def]

theorem evaluate_none (m : CostMap) (x : List α) (u : Option (List α)) :
    m.evaluate x u none = (m.residuals.map Residual.signal).mapM (Signal.value x u) := by
  rw [evaluate, List.mapM_map]
  congr
  funext r
  exact r.evaluate_none

theorem evaluate_none_eq_ok {ys : List α} :
    m.evaluate x u none = .ok ys ↔
      ys.length = m.length ∧
        ∀ (i : Nat) r, m.residuals[i]? = some r →
          ∃ y, ys[i]? = some y ∧ r.signal.value x u = .ok y := by
  rw [evaluate, mapM_eq_ok_iff]
  simp only [Residual.evaluate_none]
  rfl

theorem evaluate_shifted_entries {zs : List α} :
    m.shifted.evaluate x u (some target) = .ok zs ↔
      zs.length = m.length ∧
        ∀ (i : Nat) r, m.residuals[i]? = some r → ∃ z, zs[i]? = some z ∧
          ∃ y shift, r.signal.value x u = .ok y ∧ target[i]? = some shift ∧ y - shift = z := by
  rw [evaluate, mapM_eq_ok_iff]
  simp only [getElem?_residuals_shifted, Option.map_eq_some_iff, forall_exists_index, and_imp,
    forall_apply_eq_imp_iff₂, Residual.evaluate_shifted_eq_ok]
  rw [← length, length_shifted]

theorem evaluate_shifted_eq_ok {zs : List α} :
    m.shifted.evaluate x u (some target) = .ok zs ↔
      ∃ ys, m.evaluate x u none = .ok ys ∧ m.length ≤ target.length ∧
        zs = List.zipWith (· - ·) ys target := by
  rw [evaluate_shifted_entries]
  constructor
  · rintro ⟨hlength, hentry⟩
    have hvalue : ∀ r ∈ m.residuals, ∃ y, True ∧ r.evaluate x u none = .ok y := by
      intro r hr
      obtain ⟨i, hi⟩ := List.mem_iff_getElem?.1 hr
      obtain ⟨_, _, y, _, hy, -⟩ := hentry i r hi
      exact ⟨y, trivial, r.evaluate_none.trans hy⟩
    obtain ⟨ys, hys, -⟩ := mapM_eq_ok hvalue
    obtain ⟨hlength', hentry'⟩ := evaluate_none_eq_ok.1 hys
    refine ⟨ys, hys, ?_, List.ext_getElem? fun i => ?_⟩
    -- the residual at the end of the target would have no component to subtract
    · by_contra hlt
      obtain ⟨_, _, _, _, _, hshift, -⟩ :=
        hentry target.length _ (List.getElem?_eq_getElem (Nat.lt_of_not_le hlt))
      simp at hshift
    · rw [List.getElem?_zipWith]
      cases hr : m.residuals[i]? with
      | none =>
          have hle : m.length ≤ i := List.getElem?_eq_none_iff.1 hr
          rw [List.getElem?_eq_none (hlength.trans_le hle),
            List.getElem?_eq_none (hlength'.trans_le hle)]
      | some r =>
          obtain ⟨_, hz, y, shift, hy, hshift, rfl⟩ := hentry i r hr
          obtain ⟨_, hy', hvalue'⟩ := hentry' i r hr
          cases hy.symm.trans hvalue'
          rw [hz, hy', hshift]
  · rintro ⟨ys, hys, hle, rfl⟩
    obtain ⟨hlength, hentry⟩ := evaluate_none_eq_ok.1 hys
    refine ⟨by rw [List.length_zipWith, hlength, Nat.min_eq_left hle], fun i r hr => ?_⟩
    obtain ⟨y, hy, hvalue⟩ := hentry i r hr
    have hi : i < target.length := (List.getElem?_eq_some_iff.1 hr).1.trans_le hle
    refine ⟨y - target[i], ?_, y, _, hvalue, List.getElem?_eq_getElem hi, rfl⟩
    simp [List.getElem?_zipWith, hy, hi]

theorem evaluate_shifted_eq_error {e : ValidationError α} :
    m.shifted.evaluate x u (some target) = .error e ↔
      ∃ (i : Nat) (r : Residual), m.residuals[i]? = some r ∧ r.fault? x u target i = some e ∧
        ∀ j < i, ∀ r', m.residuals[j]? = some r' → r'.fault? x u target j = none := by
  rw [evaluate, mapM_eq_error]
  simp only [getElem?_residuals_shifted, Option.map_eq_some_iff]
  constructor
  · rintro ⟨i, _, ⟨r, hr, rfl⟩, he, hearlier⟩
    refine ⟨i, r, hr, Residual.evaluate_shifted_eq_error.1 he, fun j hj r' hr' => ?_⟩
    exact (exists_ok_iff fun _ => Residual.evaluate_shifted_eq_error).1
      (hearlier j hj _ ⟨r', hr', rfl⟩)
  · rintro ⟨i, r, hr, he, hearlier⟩
    refine ⟨i, _, ⟨r, hr, rfl⟩, Residual.evaluate_shifted_eq_error.2 he, ?_⟩
    rintro j hj _ ⟨r', hr', rfl⟩
    exact (exists_ok_iff fun _ => Residual.evaluate_shifted_eq_error).2 (hearlier j hj r' hr')

/-- Shifting a map commutes with its evaluation. A shifted map has values exactly where the map
itself has them and the target is long enough, and they are those of the map less the entries of
the target. Otherwise the first residual without a value is reported, its signal before its place
in the target. Without a target a shifted map is evaluated as the map itself, and shifting again
makes no difference. -/
theorem shifted_commutes (m : CostMap) (x : List α) (u : Option (List α)) (target : List α) :
    (∀ zs, m.shifted.evaluate x u (some target) = .ok zs ↔
      ∃ ys, m.evaluate x u none = .ok ys ∧ m.length ≤ target.length ∧
        zs = List.zipWith (· - ·) ys target) ∧
    (∀ ys, m.evaluate x u none = .ok ys → ys.length = m.length) ∧
    (∀ e, m.shifted.evaluate x u (some target) = .error e ↔
      ∃ (i : Nat) (r : Residual), m.residuals[i]? = some r ∧ r.fault? x u target i = some e ∧
        ∀ j < i, ∀ r', m.residuals[j]? = some r' → r'.fault? x u target j = none) ∧
    m.shifted.evaluate x u none = m.evaluate x u none ∧
    m.shifted.shifted = m.shifted ∧
    m.shifted.length = m.length ∧
    m.shifted.residuals.map Residual.signal = m.residuals.map Residual.signal := by
  refine ⟨fun zs => evaluate_shifted_eq_ok, fun ys hys => (evaluate_none_eq_ok.1 hys).1,
    fun e => evaluate_shifted_eq_error, ?_, m.shifted_shifted, m.length_shifted,
    m.map_signal_shifted⟩
  rw [evaluate_none, evaluate_none, map_signal_shifted]

end CostMap

end RecedingHorizon
