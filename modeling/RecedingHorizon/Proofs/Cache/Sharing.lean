import Mathlib
import RecedingHorizon.Proofs.Cache.Transparency

/-!
Problems that share an artifact. A key writes every number that is not finite as null. For most of
the numbers in it that does no harm, because no valid problem has an infinite weight, bound, segment
or horizon; but the two targets, the damping and the tolerance are not checked. So valid problems
have the same key exactly if they agree up to which of the values that are not finite stands where
one does in these four, and a valid problem never shares its artifact with another one exactly if
it is finite in them.
-/

namespace RecedingHorizon

variable {α κ σ : Type}

/-- The double, or NaN in place of an infinite one. -/
def Binary64.blur (x : Float) : Float := if x.isFinite then x else 0 / 0

/-- Another double that is written alike, if there is one. -/
def Binary64.confuse (x : Float) : Float :=
  if x.isFinite then x else if x = 0 / 0 then 1 / 0 else 0 / 0

namespace Problem

/-- The numbers in a key that a validation does not look at. -/
def unchecked (p : Problem α) : List α :=
  p.cost.stageTarget ++ p.cost.terminalTarget
    ++ [p.options.levenbergMarquardt, p.options.tolerance]

def mapUnchecked (f : α → α) (p : Problem α) : Problem α :=
  { p with
    cost := { p.cost with
      stageTarget := p.cost.stageTarget.map f
      terminalTarget := p.cost.terminalTarget.map f }
    options := { p.options with
      levenbergMarquardt := f p.options.levenbergMarquardt
      tolerance := f p.options.tolerance } }

/-- The problem with NaN in place of what is infinite and not checked. -/
def blurred (p : Problem Float) : Problem Float := p.mapUnchecked Binary64.blur

theorem unchecked_mapUnchecked (f : α → α) (p : Problem α) :
    (p.mapUnchecked f).unchecked = p.unchecked.map f := by
  simp [unchecked, mapUnchecked]

/-- A validation sees of what it does not check no more than the number of entries. -/
theorem WellFormed.mapUnchecked [Scalar α] [Spectral α] {p : Problem α} (hp : p.WellFormed)
    (f : α → α) : (p.mapUnchecked f).WellFormed where
  horizon := ⟨hp.horizon.pos, hp.horizon.intervals, hp.horizon.finite, hp.horizon.positive,
    hp.horizon.condensed⟩
  cost := ⟨hp.cost.stageMap, hp.cost.terminalMap, hp.cost.stageWeight, hp.cost.terminalWeight,
    (List.length_map f).trans hp.cost.stageTarget, (List.length_map f).trans hp.cost.terminalTarget⟩
  constraints := ⟨hp.constraints.lower, hp.constraints.upper, hp.constraints.lowerFinite,
    hp.constraints.upperFinite, hp.constraints.bounded, hp.constraints.input,
    hp.constraints.initialState⟩
  reference := ⟨hp.reference.parameters, hp.reference.selector, hp.reference.profile,
    hp.reference.unshifted⟩

/-! ### What is written alike -/

theorem ofFloat_eq_null {x : Float} (hx : ¬ x.isFinite = true) : Json.ofFloat x = .null := by
  rw [Json.ofFloat, Json.Numeral.ofFloat?_eq_none hx]

theorem ofFloat_blur (x : Float) : Json.ofFloat (Binary64.blur x) = Json.ofFloat x := by
  unfold Binary64.blur
  split
  · rfl
  next hx => rw [ofFloat_eq_null hx, ofFloat_eq_null (by decide)]

theorem ofFloat_confuse (x : Float) : Json.ofFloat (Binary64.confuse x) = Json.ofFloat x := by
  unfold Binary64.confuse
  split
  · rfl
  next hx =>
    rw [ofFloat_eq_null hx]
    split <;> exact ofFloat_eq_null (by decide)

theorem confuse_ne_self {x : Float} (hx : ¬ x.isFinite = true) : Binary64.confuse x ≠ x := by
  rw [Binary64.confuse, if_neg hx]
  split
  next hnan =>
    rw [hnan]
    decide
  next hnan => exact fun h => hnan h.symm

theorem blur_of_isFinite {x : Float} (hx : x.isFinite = true) : Binary64.blur x = x := if_pos hx

theorem blur_blur (x : Float) : Binary64.blur (Binary64.blur x) = Binary64.blur x := by
  by_cases hx : x.isFinite = true
  · rw [blur_of_isFinite hx, blur_of_isFinite hx]
  · simp only [Binary64.blur, if_neg hx]
    decide

/-- Blurred doubles are told apart by how they are written: only NaN is left to be null. -/
theorem separates_blur {xs ys : List Float} (hxs : ∀ x ∈ xs, Binary64.blur x = x)
    (hys : ∀ y ∈ ys, Binary64.blur y = y) : Json.Separates Json.ofFloat xs ys := by
  intro x hx y hy heq
  by_cases hfinite : x.isFinite = true
  · exact Json.codec_float.eq_of_write_eq hfinite heq
  · have hother : ¬ y.isFinite = true := fun hy' =>
      hfinite (Json.codec_float.eq_of_write_eq hy' heq.symm ▸ hy')
    rw [← hxs x hx, ← hys y hy, Binary64.blur, Binary64.blur, if_neg hfinite, if_neg hother]

/-- The key does not tell what is written alike. -/
theorem keyForm_mapUnchecked {f : Float → Float} (hf : ∀ x, Json.ofFloat (f x) = Json.ofFloat x)
    (p : Problem Float) : (p.mapUnchecked f).keyForm = p.keyForm := by
  have hvector (v : List Float) : vectorForm Json.ofFloat (v.map f) = vectorForm Json.ofFloat v := by
    simp [vectorForm, Json.ofList, Function.comp_def, hf]
  simp only [keyForm, mapUnchecked, Cost.form, SolverOptions.form, hvector, hf]

theorem keyForm_baked (p : Problem Float) : p.baked.keyForm = p.keyForm := rfl

/-! ### Shared keys -/

variable [Spectral Float] {p q : Problem Float}

/-- Beside what is not checked, all numbers that are baked into a valid problem are finite. -/
theorem WellFormed.isFinite_or_mem_unchecked (hp : p.WellFormed) :
    ∀ x ∈ p.baked.scalars, x.isFinite = true ∨ x ∈ p.unchecked := by
  simp only [scalars, baked, Cost.scalars, Constraints.scalars, SolverOptions.scalars,
    List.forall_mem_append, List.forall_mem_cons, forall_mem_getD, Option.forall_mem_map]
  refine ⟨⟨⟨⟨⟨⟨⟨?_, ?_⟩, ?_⟩, ?_⟩, ⟨⟨?_, ?_⟩, ?_⟩⟩, List.forall_mem_nil _⟩, ?_⟩, ?_, ?_, ?_,
    List.forall_mem_nil _⟩
  · exact fun x hx => .inl (isFinite_of_checkWeight hp.cost.stageWeight x hx)
  · exact fun x hx => .inl (isFinite_of_checkWeight hp.cost.terminalWeight x hx)
  · exact fun x hx => .inr (by simp [unchecked, hx])
  · exact fun x hx => .inr (by simp [unchecked, hx])
  · exact fun x hx => .inl (hp.constraints.lowerFinite x hx)
  · exact fun x hx => .inl (hp.constraints.upperFinite x hx)
  · simp
  · intro b hb x hx
    obtain ⟨segment, hsegment, hx⟩ := List.mem_flatten.1 hx
    exact .inl ((hp.reference.profile b hb).finite segment hsegment x hx)
  · exact .inl hp.horizon.finite
  · exact .inr (by simp [unchecked])
  · exact .inr (by simp [unchecked])

theorem WellFormed.blur_eq_self (hp : p.WellFormed) :
    ∀ x ∈ p.blurred.baked.scalars, Binary64.blur x = x := by
  intro x hx
  rcases (hp.mapUnchecked Binary64.blur).isFinite_or_mem_unchecked x hx with hfinite | hmem
  · exact blur_of_isFinite hfinite
  · rw [unchecked_mapUnchecked] at hmem
    obtain ⟨y, -, rfl⟩ := List.mem_map.1 hmem
    exact blur_blur y

theorem key_eq_iff (hp : p.WellFormed) (hq : q.WellFormed) :
    p.key = q.key ↔ p.baked.blurred = q.baked.blurred := by
  have hblurred (p : Problem Float) : p.baked.blurred.keyForm = p.keyForm :=
    (keyForm_mapUnchecked ofFloat_blur _).trans p.keyForm_baked
  rw [key_inj]
  constructor
  · intro h
    have hform : p.blurred.keyForm = q.blurred.keyForm := by
      rw [blurred, blurred, keyForm_mapUnchecked ofFloat_blur, keyForm_mapUnchecked ofFloat_blur, h]
    exact baked_eq_of_keyForm_eq (separates_blur hp.blur_eq_self hq.blur_eq_self) hform
  · intro h
    rw [← hblurred p, ← hblurred q, h]

theorem baked_eq_of_unchecked_finite (hp : p.WellFormed)
    (hfinite : ∀ x ∈ p.unchecked, x.isFinite = true) (h : p.key = q.key) : p.baked = q.baked := by
  refine baked_eq_of_keyForm_eq (separates_ofFloat fun x hx => ?_) (key_inj.1 h)
  rcases hp.isFinite_or_mem_unchecked x hx with hx | hx
  · exact hx
  · exact hfinite x hx

/-- A number that is not finite and not checked can be exchanged for another one. -/
theorem exists_key_eq_of_not_finite (hp : p.WellFormed)
    (hinfinite : ¬ ∀ x ∈ p.unchecked, x.isFinite = true) :
    ∃ q : Problem Float, q.WellFormed ∧ p.key = q.key ∧ p.baked ≠ q.baked := by
  refine ⟨p.mapUnchecked Binary64.confuse, hp.mapUnchecked _, ?_, fun heq => hinfinite ?_⟩
  · rw [key_inj, keyForm_mapUnchecked ofFloat_confuse]
  · have hsame : p.unchecked.map Binary64.confuse = p.unchecked.map id := by
      rw [← unchecked_mapUnchecked, List.map_id]
      exact (congrArg unchecked heq).symm
    intro x hx
    by_contra hx'
    exact confuse_ne_self hx' (List.map_inj_left.1 hsame x hx)

end Problem

/-! ### Shared artifacts -/

namespace Cache

variable [Spectral Float] {engine : Engine Float σ κ} {c : Cache κ} {p : Problem Float}

/-- The caches after any requests at all, for problems that may have been edited and be invalid. -/
inductive Reached (engine : Engine Float σ κ) : Cache κ → Prop where
  | empty : Reached engine Cache.empty
  | handle {c : Cache κ} (hc : Reached engine c) (p : Problem Float) (s : σ) :
      Reached engine (c.handle engine p s).2.1

/-- Every artifact was compiled from a valid problem with its key. -/
theorem Reached.exists_compile (hc : c.Reached engine) {key : Bytes} {artifact : κ}
    (hfound : c.find? key = some artifact) :
    ∃ q s, q.validate = .ok () ∧ q.key = key ∧ (engine.compile q s).1 = .ok artifact := by
  induction hc with
  | empty => cases hfound
  | handle _ p s ih =>
      rcases find?_handle hfound with hold | ⟨hkey, hvalid, hcompile⟩
      · exact ih hold
      · exact ⟨p, s, hvalid, hkey.symm, hcompile⟩

theorem Reached.handle_eq_ok (hc : c.Reached engine) {s : σ} {h : Handle Float κ}
    (hhandle : (c.handle engine p s).1.result = .ok h) :
    ∃ q s', q.validate = .ok () ∧ q.key = p.key ∧ (engine.compile q s').1 = .ok h.artifact := by
  rcases handle_cases engine c p s with ⟨_, -, hresult, -⟩ | ⟨hvalid, ⟨artifact, hfind, hresult, -⟩ |
    ⟨-, ⟨_, -, hresult, -⟩ | ⟨artifact, hcompile, hresult, -⟩⟩⟩
  · cases hhandle.symm.trans hresult
  · cases hhandle.symm.trans hresult
    exact hc.exists_compile hfind
  · cases hhandle.symm.trans hresult
  · cases hhandle.symm.trans hresult
    exact ⟨p, s, hvalid, rfl, hcompile⟩

/-- Valid problems share an entry exactly if what is baked into them is the same up to infinite
numbers that are not checked. A valid problem shares its entry with none that has other baked parts
exactly if these numbers are finite in it, and then it only ever gets an artifact that was compiled
from its own baked parts. -/
theorem shares_entry_iff {p : Problem Float} (hvalid : p.validate = .ok ()) :
    (∀ q : Problem Float, q.validate = .ok () →
      (p.key = q.key ↔ p.baked.blurred = q.baked.blurred)) ∧
    ((∀ q : Problem Float, q.validate = .ok () → p.key = q.key → p.baked = q.baked) ↔
      ∀ x ∈ p.unchecked, x.isFinite = true) ∧
    ∀ {κ σ : Type} (engine : Engine Float σ κ) (c : Cache κ), c.Reached engine →
      ∀ s h, (c.handle engine p s).1.result = .ok h →
        ∃ q s', q.validate = .ok () ∧ (engine.compile q s').1 = .ok h.artifact ∧
          q.baked.blurred = p.baked.blurred ∧
          ((∀ x ∈ p.unchecked, x.isFinite = true) → q.baked = p.baked) := by
  have hp := Problem.validate_eq_ok.1 hvalid
  refine ⟨fun q hq => Problem.key_eq_iff hp (Problem.validate_eq_ok.1 hq), ⟨?_, ?_⟩, ?_⟩
  · intro hsound
    by_contra hinfinite
    obtain ⟨q, hq, hkey, hne⟩ := Problem.exists_key_eq_of_not_finite hp hinfinite
    exact hne (hsound q (Problem.validate_eq_ok.2 hq) hkey)
  · exact fun hfinite q _ => Problem.baked_eq_of_unchecked_finite hp hfinite
  · intro κ σ engine c hc s h hhandle
    obtain ⟨q, s', hq, hkey, hcompile⟩ := hc.handle_eq_ok hhandle
    refine ⟨q, s', hq, hcompile, ?_, fun hfinite => ?_⟩
    · exact (Problem.key_eq_iff (Problem.validate_eq_ok.1 hq) hp).1 hkey
    · exact (Problem.baked_eq_of_unchecked_finite hp hfinite hkey.symm).symm

end Cache

namespace Tank

/-- The tank with another target for its level. -/
def aimedAt (level : Float) : Problem Float :=
  { problem with cost := { problem.cost with stageTarget := [level, 0] } }

/-- An engine whose artifacts are the problems that they were compiled from. -/
def keeper : Engine Float Unit (Problem Float) where
  compile p s := (.ok p, s)
  solve _ _ s := (.error "no solver", s)

theorem key_aimedAt_infinity : (aimedAt (0 / 0)).key = (aimedAt (1 / 0)).key := by
  have hconfused : aimedAt (1 / 0) = (aimedAt (0 / 0)).mapUnchecked Binary64.confuse := by
    decide +kernel
  rw [hconfused, Problem.key_inj, Problem.keyForm_mapUnchecked Problem.ofFloat_confuse]

end Tank

namespace Cache

theorem shares_entry_iff_tank :
    Tank.problem.validate = .ok () ∧ ∀ q : Problem Float, q.validate = .ok () →
      Tank.problem.key = q.key → Tank.problem.baked = q.baked := by
  obtain ⟨-, hown, -⟩ := shares_entry_iff Tank.validate_problem
  exact ⟨Tank.validate_problem, hown.2 (by decide +kernel)⟩

/-- A tank that is aimed at infinity gets the solver of one that is aimed at no number. -/
theorem shares_entry_of_infinite_target :
    (Tank.aimedAt (0 / 0)).validate = .ok () ∧ (Tank.aimedAt (1 / 0)).validate = .ok () ∧
      (Tank.aimedAt (0 / 0)).baked ≠ (Tank.aimedAt (1 / 0)).baked ∧
      ∃ h, ((Cache.empty.handle Tank.keeper (Tank.aimedAt (0 / 0)) ()).2.1.handle Tank.keeper
          (Tank.aimedAt (1 / 0)) ()).1.result = .ok h ∧
        h.problem = Tank.aimedAt (1 / 0) ∧ h.artifact = Tank.aimedAt (0 / 0) := by
  have hfirst : (Tank.aimedAt (0 / 0)).validate = .ok () := by decide +kernel
  have hsecond : (Tank.aimedAt (1 / 0)).validate = .ok () := by decide +kernel
  have hcache : (Cache.empty.handle Tank.keeper (Tank.aimedAt (0 / 0)) ()).2.1 =
      Cache.empty.insert (Tank.aimedAt (0 / 0)).key (Tank.aimedAt (0 / 0)) := by
    simp only [handle, Problem.checkCompilable_eq_ok.2 hfirst]
    rfl
  refine ⟨hfirst, hsecond, by decide +kernel,
    Handle.start (Tank.aimedAt (1 / 0)) (Tank.aimedAt (0 / 0)), ?_, rfl, rfl⟩
  rw [hcache, Tank.key_aimedAt_infinity]
  simp only [handle, Problem.checkCompilable_eq_ok.2 hsecond, find?_insert]
  rfl

end Cache

end RecedingHorizon
