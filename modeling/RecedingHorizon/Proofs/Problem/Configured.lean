import Mathlib
import RecedingHorizon.Proofs.Binary64.Sign
import RecedingHorizon.Proofs.Handle.Store
import RecedingHorizon.Proofs.Problem.Assemble
import RecedingHorizon.Proofs.Problem.File

/-!
Rules for options. A builder keeps four of them when it chooses the options of a problem, and no way
of passing a problem on changes its options. A validation looks at the shape of the horizon alone,
so it neither needs the rules nor restores them: they hold of the options that a builder chose, and
of no others.
-/

namespace RecedingHorizon

/-! ### The rules -/

namespace SolverOptions

/-- An iteration is allowed, tolerance and damping are numbers with the right sign, and the cost is
integrated by an integrator only. -/
structure Configured (o : SolverOptions Float) : Prop where
  iterations : 1 ≤ o.maxIterations
  tolerance : o.tolerance.isFinite = true ∧ 0 < o.tolerance
  damping : o.levenbergMarquardt.isFinite = true ∧ 0 ≤ o.levenbergMarquardt
  integration : o.costDiscretization = .integrator → o.integrator ≠ .discrete

/-- The shape of the horizon: what a validation looks at. -/
abbrev shape {α : Type} (o : SolverOptions α) : Nat × α × QpSolver × Nat :=
  (o.intervals, o.horizon, o.qpSolver, o.condensedIntervals)

end SolverOptions

theorem ne_discrete_of_chooseIntegrator {α : Type} {plant : Plant} {linear : Bool}
    {integrator : Integrator}
    (h : (chooseIntegrator plant linear true : Except (ConfigurationError α) _) = .ok integrator) :
    integrator ≠ .discrete := by
  rintro rfl
  cases linear with
  | true => cases h
  | false =>
      simp only [chooseIntegrator, Bool.false_eq_true, if_false] at h
      split at h <;> cases h

theorem configured_of_configure {plant : Plant} {design : Design Float} {setup : Setup Float}
    {options : SolverOptions Float} (h : configure plant design setup = .ok options) :
    options.Configured := by
  obtain ⟨integrator, hintegrator, h⟩ := bind_eq_ok.1 h
  simp only [guard_eq_ok, pure_eq_ok, not_or, Bool.not_eq_false] at h
  obtain ⟨⟨hdamping, hnonneg⟩, hiterations, ⟨htolerance, hpositive⟩, rfl⟩ := h
  refine ⟨Nat.one_le_iff_ne_zero.2 hiterations,
    ⟨htolerance, Binary64.zero_lt_of_not_le htolerance hpositive⟩,
    ⟨hdamping, Binary64.zero_le_of_not_lt hdamping hnonneg⟩, ?_⟩
  cases hcost : setup.costIntegration with
  | false => exact nofun
  | true =>
      rw [hcost] at hintegrator
      exact fun _ => ne_discrete_of_chooseIntegrator hintegrator

namespace Problem

/-! ### Where the rules hold -/

section Rules

variable [Spectral Float]

/-- A problem with options that a builder chose: it was built, or edited elsewhere than in its
options, or read from a file that such a problem was written to. -/
inductive Constructed : Problem Float → Prop where
  | built {plant : Plant} {design : Design Float} {point : OperatingPoint Float}
      {setup : Setup Float} {p : Problem Float} (h : build plant design point setup = .ok p) :
      Constructed p
  | edited {p q : Problem Float} (hp : Constructed p) (hoptions : q.options = p.options) :
      Constructed q
  | filed {p q : Problem Float} {place written : Place} (hp : Constructed p)
      (hwrite : p.write place = .ok written) (hread : read written = .ok q) : Constructed q

theorem configured_of_build {plant : Plant} {design : Design Float} {point : OperatingPoint Float}
    {setup : Setup Float} {p : Problem Float} (h : build plant design point setup = .ok p) :
    p.options.Configured := by
  obtain ⟨hdraft, -⟩ := build_eq_ok.1 h
  obtain ⟨-, options, hoptions, _, _, _, _, -, rfl⟩ := draft_eq_ok.1 hdraft
  exact configured_of_configure hoptions

theorem eq_of_read_write {p q : Problem Float} {place written : Place}
    (hwrite : p.write place = .ok written) (hread : read written = .ok q) : q = p := by
  obtain ⟨-, rfl⟩ := write_eq_ok.1 hwrite
  obtain ⟨_, ⟨rfl⟩, hdecode, -⟩ := read_eq_ok.1 hread
  exact (decode?_encode.1 hdecode).1

theorem Constructed.configured {p : Problem Float} (hp : p.Constructed) :
    p.options.Configured := by
  induction hp with
  | built h => exact configured_of_build h
  | edited _ hoptions ih => exact hoptions ▸ ih
  | filed _ hwrite hread ih => exact eq_of_read_write hwrite hread ▸ ih

end Rules

/-! ### Where they need not hold -/

abbrev withOptions {α : Type} (p : Problem α) (o : SolverOptions α) : Problem α :=
  { p with options := o }

theorem validate_withOptions {α : Type} [Scalar α] [Spectral α] {p : Problem α}
    {o : SolverOptions α} (hshape : o.shape = p.options.shape) :
    (p.withOptions o).validate = p.validate := by
  simp only [SolverOptions.shape, Prod.mk.injEq] at hshape
  obtain ⟨hintervals, hhorizon, hsolver, hcondensed⟩ := hshape
  have hcheck : (p.withOptions o).checkHorizon = p.checkHorizon := by
    simp only [checkHorizon, hintervals, hhorizon, hsolver, hcondensed]
  rw [validate, hcheck]
  rfl

/-- Options that a builder chose keep the rules, however their problem is edited elsewhere or passed
on through files, and so do those of every problem that is compiled from it. What a file holds has at
least a finite tolerance and damping. That is all that can be said: to a validation, options of one
shape are all the same, so that any can be put into a valid problem, compiled and, if they are
finite, read back. -/
theorem configured_of_constructed [Spectral Float] {κ σ : Type} (engine : Engine Float σ κ)
    (p : Problem Float) :
    (p.Constructed → p.options.Configured ∧ ∀ s h,
      (p.compile engine s).1.result = .ok h → h.problem.options.Configured) ∧
    (∀ place, read place = .ok p →
      p.options.tolerance.isFinite = true ∧ p.options.levenbergMarquardt.isFinite = true) ∧
    ∀ o : SolverOptions Float, o.shape = p.options.shape →
      (p.withOptions o).validate = p.validate ∧
      (p.validate = .ok () →
        (∀ s artifact, (engine.compile (p.withOptions o) s).1 = .ok artifact →
          ((p.withOptions o).compile engine s).1.result =
            .ok (Handle.start (p.withOptions o) artifact)) ∧
        ((p.withOptions o).FitsWords → (p.withOptions o).IsFinite →
          read (.file (p.withOptions o).encode) = .ok (p.withOptions o))) := by
  refine ⟨fun hp => ⟨hp.configured, ?_⟩, ?_, ?_⟩
  · intro s h hcompile
    obtain ⟨-, _, -, rfl⟩ := compile_eq_ok.1 hcompile
    exact hp.configured
  · intro place hread
    obtain ⟨_, -, hdecode, -⟩ := read_eq_ok.1 hread
    obtain ⟨-, -, -, -, hoptions⟩ := isFinite_iff.1 (good_of_decode? hdecode).1
    simp only [SolverOptions.scalars, List.forall_mem_cons] at hoptions
    obtain ⟨-, hdamping, htolerance, -⟩ := hoptions
    exact ⟨htolerance, hdamping⟩
  · intro o hshape
    have hverdict := validate_withOptions hshape
    refine ⟨hverdict, fun hvalid => ⟨fun s artifact hcompile => ?_, fun hwords hfinite => ?_⟩⟩
    · exact compile_eq_ok.2 ⟨hverdict.trans hvalid, artifact, hcompile, rfl⟩
    · exact (read_file_encode hwords).2 ⟨rfl, hverdict.trans hvalid, hfinite⟩

end Problem

namespace Tank

/-- With its dynamics in discrete time, the tank is built as it stands. -/
theorem build_problem :
    Problem.build { plant with discrete := true } { design with linear := true } point setup =
      .ok problem := by
  decide +kernel

/-- Options with the horizon of the tank that break every rule. -/
def laxOptions : SolverOptions Float :=
  { problem.options with
    maxIterations := 0
    tolerance := 0
    levenbergMarquardt := -1
    costDiscretization := .integrator }

def lax : Problem Float := problem.withOptions laxOptions

theorem shape_laxOptions : laxOptions.shape = problem.options.shape := rfl

theorem fitsWords_lax : lax.FitsWords := by decide +kernel

theorem isFinite_lax : lax.IsFinite := by decide +kernel

end Tank

namespace Problem

theorem configured_of_constructed_tank :
    Tank.problem.options.Configured ∧
      (Tank.problem.compile Tank.engine 0).1.result = .ok (Handle.start Tank.problem ()) ∧
      Tank.problem.options.tolerance.isFinite = true ∧
      (Tank.lax.compile Tank.engine 0).1.result = .ok (Handle.start Tank.lax ()) ∧
      read (.file Tank.lax.encode) = .ok Tank.lax := by
  have hwords : Tank.problem.FitsWords := by decide +kernel
  have hfinite : Tank.problem.IsFinite := by decide +kernel
  have hread : read (.file Tank.problem.encode) = .ok Tank.problem :=
    (read_file_encode hwords).2 ⟨rfl, Tank.validate_problem, hfinite⟩
  have hwrite : Tank.problem.write .vacant = .ok (.file Tank.problem.encode) := rfl
  have hconstructed : Tank.problem.Constructed := .filed (.built Tank.build_problem) hwrite hread
  obtain ⟨hrules, hnumbers, hany⟩ := configured_of_constructed Tank.engine Tank.problem
  obtain ⟨-, hlax⟩ := hany Tank.laxOptions Tank.shape_laxOptions
  obtain ⟨hcompile, hreadLax⟩ := hlax Tank.validate_problem
  refine ⟨(hrules hconstructed).1, ?_, ?_, ?_, ?_⟩
  · exact compile_eq_ok.2 ⟨Tank.validate_problem, (), rfl, rfl⟩
  · exact (hnumbers _ hread).1
  · rw [Tank.lax]
    exact hcompile 0 () rfl
  · exact hreadLax Tank.fitsWords_lax Tank.isFinite_lax

/-- A file whose options break every rule is read, and the problem in it is compiled. -/
theorem read_lax :
    Tank.lax.validate = .ok () ∧ read (.file Tank.lax.encode) = .ok Tank.lax ∧
      (Tank.lax.compile Tank.engine 0).1.result = .ok (Handle.start Tank.lax ()) ∧
      Tank.lax.options.maxIterations = 0 ∧ ¬ 0 < Tank.lax.options.tolerance ∧
      ¬ 0 ≤ Tank.lax.options.levenbergMarquardt ∧
      Tank.lax.options.costDiscretization = .integrator ∧
      Tank.lax.options.integrator = .discrete := by
  have hvalid : Tank.lax.validate = .ok () :=
    (validate_withOptions Tank.shape_laxOptions).trans Tank.validate_problem
  exact ⟨hvalid, (read_file_encode Tank.fitsWords_lax).2 ⟨rfl, hvalid, Tank.isFinite_lax⟩,
    compile_eq_ok.2 ⟨hvalid, (), rfl, rfl⟩, rfl, by decide +kernel, by decide +kernel, rfl, rfl⟩

end Problem

end RecedingHorizon
