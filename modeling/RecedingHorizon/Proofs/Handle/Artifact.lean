import Mathlib
import RecedingHorizon.Proofs.Handle.Call

/-!
Handles on artifacts that answer alike. Nothing that a handle does depends on its artifact but
through the answers of the engine, so a handle can be moved to another artifact with the same
answers, and no sequence of calls tells the difference.
-/

namespace RecedingHorizon

variable {α κ κ' σ : Type}

/-- The artifact answers every input in one way, whatever state the engine is in. -/
def Engine.Answers (engine : Engine α σ κ) (artifact : κ)
    (answer : SolveInput α → Except String (EngineOutput α)) : Prop :=
  ∀ input s, (engine.solve artifact input s).1 = answer input

namespace Handle

/-- The handle with another artifact. -/
abbrev moveTo (h : Handle α κ) (artifact : κ) : Handle α κ := { h with artifact := artifact }

/-- The same problem and values on another artifact and with another monitor. -/
abbrev equip (h : Handle α κ) (artifact : κ') (monitor : Option (List Update)) : Handle α κ' where
  problem := h.problem
  artifact := artifact
  initialState := h.initialState
  parameters := h.parameters
  targets := h.targets
  cycles := h.cycles
  monitor := monitor

variable {h : Handle α κ} {artifact : κ} {artifact' : κ'} {monitor : Option (List Update)}

theorem conclude_moveTo (answer : Except String (EngineOutput α)) :
    (h.moveTo artifact).conclude answer =
      ((h.conclude answer).1, (h.conclude answer).2.moveTo artifact) := by
  cases answer with
  | error text => rfl
  | ok output =>
      simp only [conclude]
      split <;> rfl

section Calls

variable [Scalar α]

theorem check_equip (setting : Setting α) :
    (h.equip artifact' monitor).check setting = h.check setting := by
  cases setting <;> rfl

omit [Scalar α] in
theorem assign_equip (setting : Setting α) :
    (h.equip artifact' monitor).assign setting = (h.assign setting).equip artifact' monitor := by
  cases setting <;> rfl

/-- A setter does not look at the artifact and the monitor. -/
theorem run_apply_equip (setting : Setting α) :
    (apply setting).run (h.equip artifact' monitor) =
      (((apply setting).run h).1, ((apply setting).run h).2.equip artifact' monitor) := by
  have hequip : (h.equip artifact' monitor).check setting = h.check setting := check_equip setting
  rcases h.guards_apply setting with ⟨hcheck, hrun⟩ | ⟨e, hcheck, hrun⟩
  · rw [hrun, run_apply_of_ok (hequip.trans hcheck), assign_equip]
  · rw [hrun, run_apply_of_error (hequip.trans hcheck)]

/-- A setter changes neither the artifact nor the monitor. -/
theorem kept_run_apply (setting : Setting α) :
    ((apply setting).run h).2.artifact = h.artifact ∧
      ((apply setting).run h).2.monitor = h.monitor := by
  rcases h.guards_apply setting with ⟨-, hrun⟩ | ⟨e, -, hrun⟩
  · simp only [hrun, artifact_assign, monitor_assign, and_self]
  · simp only [hrun, and_self]

theorem run_apply_moveTo (setting : Setting α) :
    (apply setting).run (h.moveTo artifact) =
      (((apply setting).run h).1, ((apply setting).run h).2.moveTo artifact) := by
  have hmoved : (apply setting).run (h.moveTo artifact) =
      (((apply setting).run h).1, ((apply setting).run h).2.equip artifact h.monitor) :=
    run_apply_equip setting
  rw [hmoved, ← (kept_run_apply (h := h) setting).2]

variable {engine : Engine α σ κ} {answer : SolveInput α → Except String (EngineOutput α)}

/-- One call on two artifacts with the same answers. -/
theorem perform_moveTo (hanswers : engine.Answers h.artifact answer)
    (hanswers' : engine.Answers artifact answer) (s t : σ) (call : Call α) :
    ((h.moveTo artifact).perform engine t call).1 = (h.perform engine s call).1 ∧
      ((h.moveTo artifact).perform engine t call).2.1 =
        (h.perform engine s call).2.1.moveTo artifact := by
  cases call with
  | set setting =>
      simp only [perform]
      rw [run_apply_moveTo]
      exact ⟨rfl, rfl⟩
  | attachMonitor => exact ⟨rfl, rfl⟩
  | solve =>
      have hsame : (engine.solve artifact (h.moveTo artifact).input t).1 =
          (engine.solve h.artifact h.input s).1 := by
        rw [hanswers', hanswers]
        rfl
      simp only [perform, solve_eq]
      rw [hsame, conclude_moveTo]
      exact ⟨rfl, rfl⟩

/-- A run on two artifacts with the same answers. -/
theorem run_moveTo (hanswers : engine.Answers h.artifact answer)
    (hanswers' : engine.Answers artifact answer) (s t : σ) (calls : List (Call α)) :
    ((h.moveTo artifact).run engine t calls).1 = (h.run engine s calls).1 := by
  induction calls generalizing h s t with
  | nil => rfl
  | cons call calls ih =>
      obtain ⟨hreply, hnext⟩ := perform_moveTo hanswers hanswers' s t call
      -- the next handle is still on the first artifact, so the hypothesis applies to it
      have hkept := (h.step_perform engine s call).artifact
      have hrest := ih (hkept.symm ▸ hanswers) (h.perform engine s call).2.2
        ((h.moveTo artifact).perform engine t call).2.2
      simp only [run]
      rw [hreply, hnext, hrest]

end Calls

end Handle

end RecedingHorizon
