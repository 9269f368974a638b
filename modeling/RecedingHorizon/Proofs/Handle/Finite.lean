import Mathlib
import RecedingHorizon.Proofs.Cache.Transparency

/-!
The numbers that an engine is given. A setter brings only finite numbers into a handle, so whatever
else reaches the engine has stood in the problem from the beginning, as a nominal value. A
validation looks at the lengths of the nominal values and not at the values themselves, so the
engine is given finite numbers only exactly if the nominal values are finite, as they are in every
problem that was built or read.
-/

namespace RecedingHorizon

variable {α κ σ : Type}

def SolveInput.scalars (input : SolveInput α) : List α :=
  input.initialState ++ input.parameters ++ input.targets.flatten

def SolveInput.IsFinite [Scalar α] (input : SolveInput α) : Prop :=
  ∀ x ∈ input.scalars, Scalar.isFinite x = true

/-- The numbers in a problem that a handle starts from. -/
def Problem.nominals (p : Problem α) : List α :=
  p.constraints.initialState.getD [] ++ p.parameters ++ p.cost.stageTarget
    ++ p.cost.terminalTarget

theorem Problem.nominals_subset (p : Problem α) : p.nominals ⊆ p.scalars := by
  intro x hx
  simp only [nominals, scalars, Cost.scalars, Constraints.scalars, List.mem_append] at hx ⊢
  tauto

/-- The engine, which keeps every input that it is given. -/
def Engine.recorded (engine : Engine α σ κ) : Engine α (σ × List (SolveInput α)) κ where
  compile p s := ((engine.compile p s.1).1, (engine.compile p s.1).2, s.2)
  solve artifact input s :=
    ((engine.solve artifact input s.1).1, (engine.solve artifact input s.1).2, s.2 ++ [input])

namespace Handle

/-! ### One call -/

theorem mem_scalars_input {h : Handle α κ} {x : α} :
    x ∈ h.input.scalars ↔
      x ∈ h.initialState ∨ x ∈ h.parameters ∨ ∃ target ∈ h.targets, x ∈ target := by
  simp only [input, SolveInput.scalars, List.mem_append, List.mem_flatten, or_assoc]

section Calls

variable [Scalar α] {h : Handle α κ}

theorem isFinite_or_mem_of_checkSlot {index : Nat} {value : α}
    (hcheck : h.checkSlot index value = .ok ()) :
    ∀ x ∈ h.parameters.set index value, Scalar.isFinite x = true ∨ x ∈ h.parameters := by
  intro x hx
  rcases List.mem_or_eq_of_mem_set hx with hx | rfl
  · exact .inr hx
  · exact .inl (checkSlot_eq_ok.1 hcheck).2

theorem isFinite_of_check_target {stage : Nat} {values : List α}
    (hcheck : h.check (.target stage values) = .ok ()) :
    ∀ x ∈ values, Scalar.isFinite x = true := by
  simp only [check, guard_eq_ok] at hcheck
  obtain ⟨-, hcheck⟩ := hcheck
  split at hcheck
  · exact checkFinite_eq_ok.1 (bind_unit_eq_ok.1 hcheck).2
  · exact checkFinite_eq_ok.1 (bind_unit_eq_ok.1 hcheck).2

/-- A setting that is accepted brings in finite numbers only. -/
theorem isFinite_or_mem_of_assign {setting : Setting α} (hcheck : h.check setting = .ok ()) :
    ∀ x ∈ (h.assign setting).input.scalars, Scalar.isFinite x = true ∨ x ∈ h.input.scalars := by
  simp only [mem_scalars_input]
  cases setting with
  | initialState x0 =>
      rintro x (hx | hx)
      · exact .inl (checkFinite_eq_ok.1 (bind_unit_eq_ok.1 hcheck).2 x hx)
      · exact .inr (.inr hx)
  | parameters values =>
      rintro x (hx | hx | hx)
      · exact .inr (.inl hx)
      · exact .inl (checkFinite_eq_ok.1 (bind_unit_eq_ok.1 hcheck).2 x hx)
      · exact .inr (.inr (.inr hx))
  | parameter index value =>
      rintro x (hx | hx | hx)
      · exact .inr (.inl hx)
      · exact (isFinite_or_mem_of_checkSlot hcheck x hx).imp_right fun hx => .inr (.inl hx)
      · exact .inr (.inr (.inr hx))
  | selector value =>
      simp only [check] at hcheck
      split at hcheck
      next b hb =>
        simp only [assign, Problem.selector?, hb, Option.map_some]
        rintro x (hx | hx | hx)
        · exact .inr (.inl hx)
        · exact (isFinite_or_mem_of_checkSlot hcheck x hx).imp_right fun hx => .inr (.inl hx)
        · exact .inr (.inr (.inr hx))
      next => cases hcheck
  | target stage values =>
      rintro x (hx | hx | ⟨target, htarget, hx⟩)
      · exact .inr (.inl hx)
      · exact .inr (.inr (.inl hx))
      · rcases List.mem_or_eq_of_mem_set htarget with hold | hnew
        · exact .inr (.inr (.inr ⟨target, hold, hx⟩))
        · exact .inl (isFinite_of_check_target hcheck x (hnew ▸ hx))

theorem Step.isFinite_or_mem {h' : Handle α κ} {call : Call α} {reply : Reply α}
    (hstep : h.Step call reply h') :
    ∀ x ∈ h'.input.scalars, Scalar.isFinite x = true ∨ x ∈ h.input.scalars := by
  cases hstep with
  | assigned hcheck => exact isFinite_or_mem_of_assign hcheck
  | _ => exact fun x hx => .inr hx

variable (engine : Engine α σ κ)

/-! ### Runs -/

/-- What a call gives to the engine. -/
def inputs (h : Handle α κ) : Call α → List (SolveInput α)
  | .solve => [h.input]
  | _ => []

/-- Being recorded changes nothing. -/
theorem perform_recorded (h : Handle α κ) (s : σ × List (SolveInput α)) (call : Call α) :
    h.perform engine.recorded s call =
      ((h.perform engine s.1 call).1, (h.perform engine s.1 call).2.1,
        (h.perform engine s.1 call).2.2, s.2 ++ h.inputs call) := by
  cases call with
  | set setting => simp only [perform, inputs, List.append_nil]
  | attachMonitor => simp only [perform, inputs, List.append_nil]
  | solve => simp only [perform, solve_eq, inputs, Engine.recorded]

/-- What reaches the engine in a run is finite or was there at the start of it. -/
theorem isFinite_or_mem_of_run (h : Handle α κ) (s : σ × List (SolveInput α))
    (calls : List (Call α)) :
    ∀ input ∈ (h.run engine.recorded s calls).2.2.2, input ∈ s.2 ∨
      ∀ x ∈ input.scalars, Scalar.isFinite x = true ∨ x ∈ h.input.scalars := by
  induction calls generalizing h s with
  | nil => exact fun input hinput => .inl hinput
  | cons call calls ih =>
      intro input hinput
      simp only [run, perform_recorded] at hinput
      rcases ih _ _ input hinput with hlog | hlater
      · rcases List.mem_append.1 hlog with hlog | hnow
        · exact .inl hlog
        · cases call with
          | solve =>
              rw [List.mem_singleton.1 hnow]
              exact .inr fun x hx => .inr hx
          | _ => cases hnow
      · refine .inr fun x hx => ?_
        rcases hlater x hx with hfinite | hx
        · exact .inl hfinite
        · exact (h.step_perform engine s.1 call).isFinite_or_mem x hx

end Calls

/-! ### Handles of valid problems -/

/-- A handle starts from the nominal values and nothing else. -/
theorem mem_scalars_start [Scalar α] [Spectral α] {p : Problem α} (hp : p.WellFormed)
    (artifact : κ) (x : α) :
    x ∈ (start p artifact).input.scalars ↔ x ∈ p.nominals := by
  obtain ⟨x0, hx0, -⟩ := hp.constraints.initialState
  -- a valid horizon has a stage, so that the target of the stages is really used
  have hstages : p.dimensions.intervals ≠ 0 := hp.horizon.pos.ne'
  simp [mem_scalars_input, start, Problem.nominals, hx0, hstages, or_and_right, exists_or]

variable [Spectral Float]

/-- A handle as a compilation or a request to some cache gives it. -/
inductive Issued (engine : Engine Float σ κ) (p : Problem Float) (h : Handle Float κ) : Prop where
  | compiled {s : σ} (hcompile : (p.compile engine s).1.result = .ok h)
  | cached {c : Cache κ} {s : σ} (hhandle : (c.handle engine p s).1.result = .ok h)

theorem Issued.eq_start {engine : Engine Float σ κ} {p : Problem Float} {h : Handle Float κ}
    (hissued : h.Issued engine p) :
    p.validate = .ok () ∧ ∃ artifact, h = start p artifact := by
  cases hissued with
  | compiled hcompile =>
      obtain ⟨hvalid, artifact, -, hstart⟩ := Problem.compile_eq_ok.1 hcompile
      exact ⟨hvalid, artifact, hstart.symm⟩
  | @cached c s hhandle =>
      rcases Cache.handle_cases engine c p s with ⟨_, -, hresult, -⟩ |
        ⟨hvalid, ⟨artifact, -, hresult, -⟩ | ⟨-, ⟨_, -, hresult, -⟩ | ⟨artifact, -, hresult, -⟩⟩⟩
      · cases hhandle.symm.trans hresult
      · cases hhandle.symm.trans hresult
        exact ⟨hvalid, artifact, rfl⟩
      · cases hhandle.symm.trans hresult
      · cases hhandle.symm.trans hresult
        exact ⟨hvalid, artifact, rfl⟩

/-- Whatever is called on a handle, a number that its engine is given is finite or a nominal value.
So the engine is given finite numbers only exactly if the nominal values are finite, and they are
if the problem was built or read. -/
theorem isFinite_run_iff {engine : Engine Float σ κ} {p : Problem Float} {h : Handle Float κ}
    (hissued : h.Issued engine p) :
    (∀ calls s, ∀ input ∈ (h.run engine.recorded (s, []) calls).2.2.2, ∀ x ∈ input.scalars,
      x.isFinite = true ∨ x ∈ p.nominals) ∧
    (∀ s, (∀ calls, ∀ input ∈ (h.run engine.recorded (s, []) calls).2.2.2, input.IsFinite) ↔
      ∀ x ∈ p.nominals, x.isFinite = true) ∧
    (p.Obtained → ∀ calls s, ∀ input ∈ (h.run engine.recorded (s, []) calls).2.2.2,
      input.IsFinite) := by
  obtain ⟨hvalid, artifact, rfl⟩ := hissued.eq_start
  have hp := Problem.validate_eq_ok.1 hvalid
  have hnominal (calls : List (Call Float)) (s : σ) :
      ∀ input ∈ ((start p artifact).run engine.recorded (s, []) calls).2.2.2, ∀ x ∈ input.scalars,
        x.isFinite = true ∨ x ∈ p.nominals := by
    intro input hinput x hx
    rcases isFinite_or_mem_of_run engine _ _ calls input hinput with hnone | hall
    · cases hnone
    · exact (hall x hx).imp_right (mem_scalars_start hp artifact x).1
  have hfinite (hnominals : ∀ x ∈ p.nominals, x.isFinite = true) (calls : List (Call Float))
      (s : σ) : ∀ input ∈ ((start p artifact).run engine.recorded (s, []) calls).2.2.2,
        input.IsFinite :=
    fun input hinput x hx => (hnominal calls s input hinput x hx).elim id (hnominals x)
  refine ⟨hnominal, fun s => ⟨fun hall x hx => ?_, fun h calls => hfinite h calls s⟩,
    fun hobtained => hfinite fun x hx => hobtained.isFinite x (p.nominals_subset hx)⟩
  have hfirst : (start p artifact).input ∈
      ((start p artifact).run engine.recorded (s, []) [.solve]).2.2.2 := by
    simp only [run, perform_recorded, inputs, List.nil_append, List.mem_singleton]
  exact hall [.solve] _ hfirst x ((mem_scalars_start hp artifact x).2 hx)

end Handle

namespace Tank

/-- The tank before its level is measured. -/
def unmeasured : Problem Float :=
  { problem with constraints := { problem.constraints with initialState := some [0 / 0] } }

end Tank

namespace Handle

theorem isFinite_run_tank :
    ∃ h, (Tank.problem.compile Tank.engine 0).1.result = .ok h ∧
      ∀ calls, ∀ input ∈ (h.run Tank.engine.recorded (0, []) calls).2.2.2, input.IsFinite := by
  have hcompile : (Tank.problem.compile Tank.engine 0).1.result = .ok (start Tank.problem ()) :=
    Problem.compile_eq_ok.2 ⟨Tank.validate_problem, (), rfl, rfl⟩
  obtain ⟨-, hfinite, -⟩ := isFinite_run_iff (.compiled hcompile)
  exact ⟨_, hcompile, (hfinite 0).2 (by decide +kernel)⟩

/-- A valid problem is compiled whose first solve starts from no number. -/
theorem not_isFinite_run_unmeasured :
    ∃ h, (Tank.unmeasured.compile Tank.engine 0).1.result = .ok h ∧
      ∃ input ∈ (h.run Tank.engine.recorded (0, []) [.solve]).2.2.2, ¬ input.IsFinite := by
  have hvalid : Tank.unmeasured.validate = .ok () := by decide +kernel
  refine ⟨start Tank.unmeasured (), Problem.compile_eq_ok.2 ⟨hvalid, (), rfl, rfl⟩,
    (start Tank.unmeasured ()).input, ?_, fun hfinite => ?_⟩
  · simp only [run, perform_recorded, inputs, List.nil_append, List.mem_singleton]
  · have hlevel : (0 / 0 : Float).isFinite = true := hfinite (0 / 0) (List.mem_cons_self ..)
    exact absurd hlevel (by decide)

end Handle

end RecedingHorizon
