import Mathlib
import RecedingHorizon.Proofs.Handle.Call
import RecedingHorizon.Proofs.Problem.Content

/-!
A handle stores what was set last. Every slot of a handle, which is its initial state, one of its
runtime parameters or the target of one stage, holds the value of the last accepted setting that
writes it, and its nominal value if there is none. Settings that write the same slot in different
ways overwrite each other, and calls that fail or solve write nothing.
-/

namespace RecedingHorizon

variable {α β κ σ : Type}

/-! ### Writes -/

namespace Setting

def initialState? : Setting α → Option (List α)
  | .initialState x0 => some x0
  | _ => none

/-- What a setting writes to a slot of the parameters, one of which may be the selector. -/
def parameter? (selector? : Option Nat) (slot : Nat) : Setting α → Option α
  | .parameters values => values[slot]?
  | .parameter index value => if index = slot then some value else none
  | .selector value => if selector? = some slot then some value else none
  | _ => none

def target? (slot : Nat) : Setting α → Option (List α)
  | .target stage values => if stage = slot then some values else none
  | _ => none

end Setting

/-- The last value that is written, or else the nominal one. -/
def lastWrite (write? : Setting α → Option β) (settings : List (Setting α)) (nominal : β) : β :=
  (settings.filterMap write?).getLastD nominal

@[simp] theorem lastWrite_nil (write? : Setting α → Option β) : lastWrite write? [] = id := rfl

/-- A later setting overwrites what earlier ones left, if it writes at all. -/
theorem lastWrite_append_singleton (write? : Setting α → Option β) (settings : List (Setting α))
    (setting : Setting α) (nominal : β) :
    lastWrite write? (settings ++ [setting]) nominal =
      (write? setting).getD (lastWrite write? settings nominal) := by
  cases hwrite : write? setting <;> simp [lastWrite, hwrite, List.getLastD_eq_getLast?]

theorem map_lastWrite (write? : Setting α → Option β) (settings : List (Setting α))
    (setting : Setting α) (held : Option β) :
    (held.map (lastWrite write? settings)).map (write? setting).getD =
      held.map (lastWrite write? (settings ++ [setting])) := by
  cases held with
  | none => rfl
  | some nominal => exact congrArg some (lastWrite_append_singleton _ _ _ _).symm

/-- The settings that were accepted, in the order of their calls. -/
def accepted (trace : List (Call α × Reply α)) : List (Setting α) :=
  trace.filterMap fun
    | (.set setting, reply) => if reply.isOk then some setting else none
    | _ => none

namespace Handle

/-! ### Assignments read back -/

theorem map_getD_none (o : Option β) : o.map (none : Option β).getD = o := by
  cases o <;> rfl

theorem getElem?_set_eq_map (held : List β) (index slot : Nat) (value : β) :
    (held.set index value)[slot]? =
      held[slot]?.map (if index = slot then some value else none).getD := by
  rw [List.getElem?_set']
  split
  · rfl
  · exact (map_getD_none _).symm

variable {start h : Handle α κ} {settings : List (Setting α)} {setting : Setting α}

theorem initialState_assign :
    (h.assign setting).initialState = setting.initialState?.getD h.initialState := by
  cases setting <;> rfl

theorem getElem?_parameters_assign [Scalar α] (hfits : setting.Fits h.problem)
    (hparameters : h.parameters.length = h.problem.dimensions.parameters) (slot : Nat) :
    (h.assign setting).parameters[slot]? =
      h.parameters[slot]?.map (setting.parameter? h.problem.selector? slot).getD := by
  cases setting with
  | parameters values =>
      -- an accepted vector has as many slots as the one it replaces
      have hlength : values.length = h.parameters.length := hfits.1.trans hparameters.symm
      by_cases hslot : slot < values.length
      · have hold : slot < h.parameters.length := hlength ▸ hslot
        simp [assign, Setting.parameter?, hslot, hold]
      · have hold : h.parameters.length ≤ slot := hlength ▸ Nat.le_of_not_lt hslot
        simp [assign, hold, Nat.le_of_not_lt hslot]
  | parameter index value => exact getElem?_set_eq_map _ _ _ _
  | selector value =>
      simp only [assign, Setting.parameter?]
      split
      next index heq => simp only [getElem?_set_eq_map, heq, Option.some.injEq]
      next heq => simp only [heq, reduceCtorEq, if_false, map_getD_none]
  | _ => exact (map_getD_none _).symm

theorem getElem?_targets_assign (stage : Nat) :
    (h.assign setting).targets[stage]? = h.targets[stage]?.map (setting.target? stage).getD := by
  cases setting with
  | target => exact getElem?_set_eq_map _ _ _ _
  | _ => exact (map_getD_none _).symm

/-! ### The store -/

/-- The handle holds what is left of `start` after the given settings. -/
structure Stores (start : Handle α κ) (settings : List (Setting α)) (h : Handle α κ) : Prop where
  problem : h.problem = start.problem
  artifact : h.artifact = start.artifact
  initialState : h.initialState = lastWrite Setting.initialState? settings start.initialState
  parameters : ∀ slot, h.parameters[slot]? =
    start.parameters[slot]?.map
      (lastWrite (Setting.parameter? start.problem.selector? slot) settings)
  targets : ∀ stage, h.targets[stage]? =
    start.targets[stage]?.map (lastWrite (Setting.target? stage) settings)

theorem Stores.refl (start : Handle α κ) : Stores start [] start := by
  refine ⟨rfl, rfl, rfl, fun slot => ?_, fun stage => ?_⟩ <;>
    rw [lastWrite_nil, Option.map_id, id]

theorem Stores.length_parameters (hstores : Stores start settings h) :
    h.parameters.length = start.parameters.length := by
  have hnone (slot : Nat) : h.parameters.length ≤ slot ↔ start.parameters.length ≤ slot := by
    rw [← List.getElem?_eq_none_iff, hstores.parameters, Option.map_eq_none_iff,
      List.getElem?_eq_none_iff]
  exact Nat.le_antisymm ((hnone _).2 le_rfl) ((hnone _).1 le_rfl)

theorem Stores.length_eq_dimension (hstores : Stores start settings h)
    (hparameters : start.parameters.length = start.problem.dimensions.parameters) :
    h.parameters.length = h.problem.dimensions.parameters := by
  rw [hstores.length_parameters, hstores.problem, hparameters]

/-- Assigning an accepted setting is one more write. -/
theorem Stores.assign [Scalar α] (hstores : Stores start settings h)
    (hparameters : start.parameters.length = start.problem.dimensions.parameters)
    (hfits : setting.Fits start.problem) :
    Stores start (settings ++ [setting]) (h.assign setting) := by
  have hlength := hstores.length_eq_dimension hparameters
  refine ⟨?_, ?_, ?_, fun slot => ?_, fun stage => ?_⟩
  · rw [problem_assign, hstores.problem]
  · rw [artifact_assign, hstores.artifact]
  · rw [initialState_assign, lastWrite_append_singleton, hstores.initialState]
  · rw [getElem?_parameters_assign (hstores.problem ▸ hfits) hlength, hstores.parameters,
      hstores.problem, map_lastWrite]
  · rw [getElem?_targets_assign, hstores.targets, map_lastWrite]

/-! ### Runs -/

theorem accepted_cons (event : Call α × Reply α) (trace : List (Call α × Reply α)) :
    accepted (event :: trace) = accepted [event] ++ accepted trace :=
  List.filterMap_append (l := [event])

theorem Stores.advance (hstores : Stores start settings h) (status : SolveStatus) :
    Stores start settings (h.advance status) :=
  ⟨hstores.problem, hstores.artifact, hstores.initialState, hstores.parameters, hstores.targets⟩

theorem Stores.attachMonitor (hstores : Stores start settings h) :
    Stores start settings h.attachMonitor :=
  ⟨hstores.problem, hstores.artifact, hstores.initialState, hstores.parameters, hstores.targets⟩

variable [Scalar α] (engine : Engine α σ κ)

theorem Stores.step {h' : Handle α κ} {call : Call α} {reply : Reply α}
    (hstores : Stores start settings h) (hp : start.problem.ReferenceFits)
    (hparameters : start.parameters.length = start.problem.dimensions.parameters)
    (hstep : h.Step call reply h') : Stores start (settings ++ accepted [(call, reply)]) h' := by
  have hnothing (settings : List (Setting α)) : settings ++ [] = settings :=
    List.append_nil settings
  cases hstep with
  | assigned hcheck =>
      have hlength := hstores.length_eq_dimension hparameters
      have hfits := (check_eq_ok (hstores.problem ▸ hp) hlength).1 hcheck
      exact hstores.assign hparameters (hstores.problem ▸ hfits)
  | refused => exact (hnothing settings).symm ▸ hstores
  | attached => exact (hnothing settings).symm ▸ hstores.attachMonitor
  | completed x => exact (hnothing settings).symm ▸ hstores.advance x.status
  | failed => exact (hnothing settings).symm ▸ hstores

/-- A run goes on storing what was set last. -/
theorem Stores.run (hstores : Stores start settings h) (hp : start.problem.ReferenceFits)
    (hparameters : start.parameters.length = start.problem.dimensions.parameters) (s : σ)
    (calls : List (Call α)) :
    Stores start (settings ++ accepted (h.run engine s calls).1) (h.run engine s calls).2.1 := by
  induction calls generalizing h s settings with
  | nil => exact (List.append_nil settings).symm ▸ hstores
  | cons call calls ih =>
      have hstep := hstores.step hp hparameters (h.step_perform engine s call)
      have hrest := ih hstep (h.perform engine s call).2.2
      rw [List.append_assoc, ← accepted_cons] at hrest
      exact hrest

end Handle

/-! ### Compiled handles -/

/-- The target that the cost gives to a stage, if the horizon has it. -/
def Problem.nominalTarget? (p : Problem α) (stage : Nat) : Option (List α) :=
  if stage < p.dimensions.intervals then some p.cost.stageTarget
  else if stage = p.dimensions.intervals then some p.cost.terminalTarget
  else none

theorem Handle.getElem?_targets_start [Scalar α] (p : Problem α) (artifact : κ) (stage : Nat) :
    (start p artifact).targets[stage]? = p.nominalTarget? stage := by
  simp only [start, List.getElem?_append, List.length_replicate, List.getElem?_replicate,
    Problem.nominalTarget?]
  rcases Nat.lt_trichotomy stage p.dimensions.intervals with hlt | rfl | hgt
  · simp only [if_pos hlt]
  · simp
  · have hbefore : ¬ stage < p.dimensions.intervals := by omega
    have hlast : ¬ stage = p.dimensions.intervals := by omega
    rw [if_neg hbefore, if_neg hbefore, if_neg hlast, List.getElem?_eq_none_iff]
    rw [List.length_singleton]
    omega

namespace Handle

variable [Scalar α] [Spectral α] {p : Problem α} {engine : Engine α σ κ} {start h : Handle α κ}
  {s₀ s s' : σ} {calls : List (Call α)} {trace : List (Call α × Reply α)}

/-- After any calls on a compiled handle, a setting is accepted exactly if it fits the problem; every
slot holds the last accepted value, or else the nominal one; a call that fails changes nothing; and
a solve hands exactly what is held to the compiled artifact. -/
theorem run_of_compile (hcompile : (p.compile engine s₀).1.result = .ok start)
    (hrun : start.run engine s calls = (trace, h, s')) :
    (∀ setting, (h.perform engine s' (.set setting)).1.isOk = true ↔ setting.Fits p) ∧
    (h.problem = p ∧
      (∃ x0, p.constraints.initialState = some x0 ∧
        h.initialState = lastWrite Setting.initialState? (accepted trace) x0) ∧
      (∀ slot, h.parameters[slot]? = p.parameters[slot]?.map
        (lastWrite (Setting.parameter? p.selector? slot) (accepted trace))) ∧
      ∀ stage, h.targets[stage]? = (p.nominalTarget? stage).map
        (lastWrite (Setting.target? stage) (accepted trace))) ∧
    (∀ call, (h.perform engine s' call).1.isOk = false → (h.perform engine s' call).2.1 = h) ∧
    (h.solve engine s').2.2 =
        (engine.solve start.artifact ⟨h.initialState, h.parameters, h.targets⟩ s').2 ∧
      ∀ solution, (h.solve engine s').1.result = .ok solution ↔
        ∃ output, (engine.solve start.artifact
            ⟨h.initialState, h.parameters, h.targets⟩ s').1 = .ok output ∧
          output.action.length = p.dimensions.inputs ∧
          solution = ⟨output.action, output.exit, output.iterations⟩ := by
  obtain ⟨hvalid, artifact, -, rfl⟩ := Problem.compile_eq_ok.1 hcompile
  have hp := Problem.validate_eq_ok.1 hvalid
  have hparameters : (Handle.start p artifact).parameters.length = p.dimensions.parameters :=
    hp.reference.parameters
  have hstores := (Stores.refl (Handle.start p artifact)).run engine hp.reference hparameters s calls
  rw [hrun, List.nil_append] at hstores
  have hlength := hstores.length_eq_dimension hparameters
  obtain ⟨x0, hx0, -⟩ := hp.constraints.initialState
  refine ⟨fun setting => ?_, ⟨hstores.problem, ⟨x0, hx0, ?_⟩, hstores.parameters, fun stage => ?_⟩,
    fun call => (h.step_perform engine s' call).eq_of_not_isOk, ?_, fun solution => ?_⟩
  · have haccept := isOk_perform_set engine s' (hstores.problem ▸ hp.reference) hlength setting
    rwa [hstores.problem] at haccept
  · rw [hstores.initialState]
    simp only [Handle.start, hx0, Option.getD_some]
  · rw [hstores.targets, getElem?_targets_start]
  · rw [solve_eq, hstores.artifact]
    rfl
  · rw [solve_eq, conclude_eq_ok, hstores.artifact, hstores.problem]
    rfl

end Handle

namespace Tank

/-- An engine that answers every solve alike and counts them. -/
def engine : Engine Float Nat Unit where
  compile _ solves := (.ok (), solves)
  solve _ _ solves := (.ok ⟨[0.5], .converged, 1⟩, solves + 1)

/-- The last of the three values for the selector is no number. -/
def calls : List (Call Float) :=
  [.set (.parameters [0]), .set (.selector 1), .solve, .set (.parameter 0 (0 / 0))]

end Tank

namespace Handle

theorem run_of_compile_tank :
    ∃ trace h s, (start Tank.problem ()).run Tank.engine 0 Tank.calls = (trace, h, s) ∧
      h.parameters[0]? = some 1 := by
  have hcompile : (Tank.problem.compile Tank.engine 0).1.result = .ok (start Tank.problem ()) :=
    Problem.compile_eq_ok.2 ⟨Tank.validate_problem, (), rfl, rfl⟩
  have hrun : (start Tank.problem ()).run Tank.engine 0 Tank.calls = (_, _, _) := rfl
  obtain ⟨-, ⟨-, -, hslots, -⟩, -⟩ := run_of_compile hcompile hrun
  refine ⟨_, _, _, hrun, ?_⟩
  rw [hslots 0]
  decide +kernel

end Handle

end RecedingHorizon
