import Mathlib
import RecedingHorizon.Handle
import RecedingHorizon.Proofs.Problem.Validate

/-!
Calls on a handle, and what one call does. A setting is accepted exactly if it fits the problem, and
is then assigned; a solve asks the engine once and counts a cycle only if it has a solution. A call
that fails leaves the handle as it was. Whatever a run of calls keeps is kept by the few steps that
a call can take.
-/

namespace RecedingHorizon

/-- New values for a part of what a control loop hands to its solver. -/
inductive Setting (α : Type) where
  | initialState (x0 : List α)
  | parameters (p : List α)
  | parameter (index : Nat) (value : α)
  | selector (value : α)
  | target (stage : Nat) (values : List α)

inductive Call (α : Type) where
  | set (setting : Setting α)
  | attachMonitor
  | solve

inductive Reply (α : Type) where
  | set (result : Checked α Unit)
  | attached
  | solved (report : Reported α (ProblemError α) (Solution α))

variable {α κ σ : Type}

def Reply.isOk : Reply α → Bool
  | .set result => result.isOk
  | .attached => true
  | .solved report => report.result.isOk

/-- The slot of the selector, if a profile is bound. -/
def Problem.selector? (p : Problem α) : Option Nat := p.reference.map Binding.selector

namespace Handle

/-- The handle after a setting that was accepted. -/
def assign (h : Handle α κ) : Setting α → Handle α κ
  | .initialState x0 => { h with initialState := x0 }
  | .parameters values => { h with parameters := values }
  | .parameter index value => { h with parameters := h.parameters.set index value }
  | .selector value => { h with
      parameters := match h.problem.selector? with
        | some index => h.parameters.set index value
        | none => h.parameters }
  | .target stage values => { h with targets := h.targets.set stage values }

section Assignments

variable {h : Handle α κ} {setting : Setting α}

@[simp] theorem problem_assign : (h.assign setting).problem = h.problem := by
  cases setting <;> rfl

@[simp] theorem artifact_assign : (h.assign setting).artifact = h.artifact := by
  cases setting <;> rfl

@[simp] theorem cycles_assign : (h.assign setting).cycles = h.cycles := by
  cases setting <;> rfl

@[simp] theorem monitor_assign : (h.assign setting).monitor = h.monitor := by
  cases setting <;> rfl

end Assignments

end Handle

section Calls

variable [Scalar α]

/-- The dimensions of a setting are those of the problem, and its numbers are finite. -/
def Setting.Fits (p : Problem α) : Setting α → Prop
  | .initialState x0 =>
      x0.length = p.dimensions.states ∧ ∀ x ∈ x0, Scalar.isFinite x = true
  | .parameters values =>
      values.length = p.dimensions.parameters ∧ ∀ x ∈ values, Scalar.isFinite x = true
  | .parameter index value => index < p.dimensions.parameters ∧ Scalar.isFinite value = true
  | .selector value => p.reference ≠ none ∧ Scalar.isFinite value = true
  | .target stage values =>
      (stage < p.dimensions.intervals ∧ values.length = p.dimensions.stageResiduals ∨
        stage = p.dimensions.intervals ∧ values.length = p.dimensions.terminalResiduals) ∧
      ∀ x ∈ values, Scalar.isFinite x = true

namespace Handle

def apply : Setting α → Setter α κ Unit
  | .initialState x0 => setInitialState x0
  | .parameters values => setParameters values
  | .parameter index value => setParameter index value
  | .selector value => setSelector value
  | .target stage values => setTarget stage values

def perform (engine : Engine α σ κ) (h : Handle α κ) (s : σ) : Call α → Reply α × Handle α κ × σ
  | .set setting =>
    let (result, h) := (apply setting).run h
    (.set result, h, s)
  | .attachMonitor => (.attached, h.attachMonitor, s)
  | .solve =>
    let (report, h, s) := h.solve engine s
    (.solved report, h, s)

/-- Calls one after the other, with the reply to each. -/
def run (engine : Engine α σ κ) (h : Handle α κ) (s : σ) :
    List (Call α) → List (Call α × Reply α) × Handle α κ × σ
  | [] => ([], h, s)
  | call :: calls =>
    let (reply, h, s) := h.perform engine s call
    let (trace, h, s) := h.run engine s calls
    ((call, reply) :: trace, h, s)

/-! ### Settings -/

/-- The checks of a value for one of the runtime parameters. -/
def checkSlot (h : Handle α κ) (index : Nat) (value : α) : Checked α Unit :=
  if h.parameters.length ≤ index then .error (.outOfRange "p" index h.parameters.length)
  else if Scalar.isFinite value = false then .error (.notFinite "p" index)
  else .ok ()

/-- The checks of a setting, without the writing. -/
def check (h : Handle α κ) : Setting α → Checked α Unit
  | .initialState x0 => do
    checkLength "x0" h.problem.dimensions.states x0
    checkFinite "x0" x0
  | .parameters values => do
    checkLength "p" h.problem.dimensions.parameters values
    checkFinite "p" values
  | .parameter index value => h.checkSlot index value
  | .selector value =>
    match h.problem.reference with
    | some binding => h.checkSlot binding.selector value
    | none => .error .noReference
  | .target stage values => do
    let d := h.problem.dimensions
    if d.intervals < stage then .error (.outOfRange "stage" stage (d.intervals + 1))
    if stage = d.intervals then checkLength "yref_e" d.terminalResiduals values
    else checkLength "yref" d.stageResiduals values
    checkFinite "yref" values

/-- A setter that writes `changed` if a check succeeds, and nothing if it fails. -/
def Guards (setter : Setter α κ Unit) (h : Handle α κ) (check : Checked α Unit)
    (changed : Handle α κ) : Prop :=
  check = .ok () ∧ setter.run h = (.ok (), changed) ∨
    ∃ e, check = .error e ∧ setter.run h = (.error e, h)

variable {h changed : Handle α κ} {setting : Setting α}

omit [Scalar α] in
theorem run_get (f : Handle α κ → Setter α κ Unit) : Setter.run (get >>= f) h = (f h).run h := rfl

omit [Scalar α] in
theorem guards_checks (first second : Checked α Unit) :
    Guards (do first; second; set changed : Setter α κ Unit) h (do first; second) changed := by
  cases first with
  | error e => exact .inr ⟨e, rfl, rfl⟩
  | ok =>
      cases second with
      | error e => exact .inr ⟨e, rfl, rfl⟩
      | ok => exact .inl ⟨rfl, rfl⟩

theorem guards_setParameter (index : Nat) (value : α) :
    Guards (setParameter index value) h (h.checkSlot index value)
      { h with parameters := h.parameters.set index value } := by
  simp only [Guards, setParameter, run_get, checkSlot]
  split
  · exact .inr ⟨_, rfl, rfl⟩
  · split
    · exact .inr ⟨_, rfl, rfl⟩
    · exact .inl ⟨rfl, rfl⟩

/-- A setter makes all its checks before it writes. -/
theorem guards_apply (h : Handle α κ) (setting : Setting α) :
    Guards (apply setting) h (h.check setting) (h.assign setting) := by
  cases setting with
  | initialState x0 => exact guards_checks (h := h) _ _
  | parameters values => exact guards_checks (h := h) _ _
  | parameter index value => exact guards_setParameter index value
  | selector value =>
      cases hreference : h.problem.reference with
      | none =>
          simp only [Guards, apply, setSelector, run_get, check, hreference]
          exact .inr ⟨_, rfl, rfl⟩
      | some b =>
          have hguards := guards_setParameter (h := h) b.selector value
          simp only [Guards, apply, setSelector, run_get, check, assign, Problem.selector?,
            hreference] at hguards ⊢
          exact hguards
  | target stage values =>
      simp only [Guards, apply, setTarget, run_get, check]
      split
      · exact .inr ⟨_, rfl, rfl⟩
      · split <;> exact guards_checks (h := h) _ _

theorem run_apply_of_ok (hcheck : h.check setting = .ok ()) :
    (apply setting).run h = (.ok (), h.assign setting) := by
  rcases h.guards_apply setting with ⟨-, hrun⟩ | ⟨e, herror, -⟩
  · exact hrun
  · cases hcheck.symm.trans herror

theorem run_apply_of_error {e : ValidationError α} (hcheck : h.check setting = .error e) :
    (apply setting).run h = (.error e, h) := by
  rcases h.guards_apply setting with ⟨hok, -⟩ | ⟨_, herror, hrun⟩
  · cases hcheck.symm.trans hok
  · cases hcheck.symm.trans herror
    exact hrun

theorem checkSlot_eq_ok {index : Nat} {value : α} :
    h.checkSlot index value = .ok () ↔
      index < h.parameters.length ∧ Scalar.isFinite value = true := by
  unfold checkSlot
  split
  next hindex => simp [Nat.not_lt.2 hindex]
  next hindex =>
    split
    next hvalue => simp [hvalue]
    next hvalue => simp [Nat.lt_of_not_le hindex, hvalue]

/-- The checks succeed exactly if the setting fits the problem. -/
theorem check_eq_ok (hp : h.problem.ReferenceFits)
    (hparameters : h.parameters.length = h.problem.dimensions.parameters) :
    h.check setting = .ok () ↔ setting.Fits h.problem := by
  cases setting with
  | initialState x0 =>
      simp only [check, bind_unit_eq_ok, checkLength_eq_ok, checkFinite_eq_ok, Setting.Fits]
  | parameters values =>
      simp only [check, bind_unit_eq_ok, checkLength_eq_ok, checkFinite_eq_ok, Setting.Fits]
  | parameter index value => simp only [check, checkSlot_eq_ok, hparameters, Setting.Fits]
  | selector value =>
      cases hreference : h.problem.reference with
      | none => simp [check, hreference, Setting.Fits]
      | some b =>
          have hselector : b.selector < h.problem.dimensions.parameters := hp.selector b hreference
          simp [check, hreference, checkSlot_eq_ok, hparameters, hselector, Setting.Fits]
  | target stage values =>
      simp only [check, guard_eq_ok, not_lt, Setting.Fits]
      -- the last stage is the terminal one, and has a length of its own
      by_cases hlast : stage = h.problem.dimensions.intervals
      · subst hlast
        simp only [if_true, bind_unit_eq_ok, checkLength_eq_ok, checkFinite_eq_ok, le_refl,
          lt_irrefl, true_and, false_and, false_or]
      · have hbefore : stage < h.problem.dimensions.intervals ↔
            stage ≤ h.problem.dimensions.intervals := by omega
        simp only [if_neg hlast, bind_unit_eq_ok, checkLength_eq_ok, checkFinite_eq_ok, hbefore]
        simp only [hlast, false_and, or_false, and_assoc]

theorem isOk_perform_set (engine : Engine α σ κ) (s : σ) (hp : h.problem.ReferenceFits)
    (hparameters : h.parameters.length = h.problem.dimensions.parameters) (setting : Setting α) :
    (h.perform engine s (.set setting)).1.isOk = true ↔ setting.Fits h.problem := by
  rw [← check_eq_ok hp hparameters]
  rcases h.guards_apply setting with ⟨hcheck, hrun⟩ | ⟨e, hcheck, hrun⟩
  · simp only [perform, hrun, hcheck]
    exact iff_of_true rfl trivial
  · simp only [perform, hrun, hcheck]
    exact iff_of_false nofun nofun

end Handle

end Calls

namespace Handle

/-! ### Solves -/

/-- What a handle makes of an answer of the engine. -/
def conclude (h : Handle α κ) :
    Except String (EngineOutput α) → Reported α (ProblemError α) (Solution α) × Handle α κ
  | .error text => (.silent (.error (.solver (.engine text))), h)
  | .ok output =>
    if output.action.length = h.problem.dimensions.inputs then
      (⟨h.solveNotices ⟨output.exit, output.iterations⟩,
        .ok ⟨output.action, output.exit, output.iterations⟩⟩,
        h.advance ⟨output.exit, output.iterations⟩)
    else
      (.silent (.error (.solver (.validation
        (.dimension "u0" h.problem.dimensions.inputs output.action.length)))), h)

/-- The engine is asked once, with what the handle holds. -/
theorem solve_eq (engine : Engine α σ κ) (h : Handle α κ) (s : σ) :
    h.solve engine s =
      ((h.conclude (engine.solve h.artifact h.input s).1).1,
        (h.conclude (engine.solve h.artifact h.input s).1).2,
        (engine.solve h.artifact h.input s).2) := by
  rcases hanswer : engine.solve h.artifact h.input s with ⟨_ | output, s'⟩
  · simp only [solve, hanswer, conclude]
  · simp only [solve, hanswer, conclude]
    split <;> rfl

/-- A solve has a solution if the engine answers with an action for every input. -/
theorem conclude_eq_ok {h : Handle α κ} {answer : Except String (EngineOutput α)}
    {solution : Solution α} :
    (h.conclude answer).1.result = .ok solution ↔
      ∃ output, answer = .ok output ∧ output.action.length = h.problem.dimensions.inputs ∧
        solution = ⟨output.action, output.exit, output.iterations⟩ := by
  cases answer with
  | error text => simp [conclude]
  | ok output =>
      by_cases hlength : output.action.length = h.problem.dimensions.inputs
      · simp [conclude, hlength, eq_comm]
      · simp [conclude, hlength]

/-! ### Steps -/

section Steps

variable [Scalar α]

/-- All that a call can do to a handle, with the reply to it. -/
inductive Step (h : Handle α κ) : Call α → Reply α → Handle α κ → Prop where
  | assigned {setting : Setting α} (hcheck : h.check setting = .ok ()) :
      Step h (.set setting) (.set (.ok ())) (h.assign setting)
  | refused {setting : Setting α} {e : ValidationError α} (hcheck : h.check setting = .error e) :
      Step h (.set setting) (.set (.error e)) h
  | attached : Step h .attachMonitor .attached h.attachMonitor
  | completed (x : Solution α) :
      Step h .solve (.solved ⟨h.solveNotices x.status, .ok x⟩) (h.advance x.status)
  | failed (e : ProblemError α) : Step h .solve (.solved (.silent (.error e))) h

theorem step_conclude (h : Handle α κ) (answer : Except String (EngineOutput α)) :
    h.Step .solve (.solved (h.conclude answer).1) (h.conclude answer).2 := by
  cases answer with
  | error text => exact .failed _
  | ok output =>
      by_cases hlength : output.action.length = h.problem.dimensions.inputs
      · rw [conclude, if_pos hlength]
        exact .completed ⟨output.action, output.exit, output.iterations⟩
      · rw [conclude, if_neg hlength]
        exact .failed _

theorem step_solve (engine : Engine α σ κ) (h : Handle α κ) (s : σ) :
    h.Step .solve (.solved (h.solve engine s).1) (h.solve engine s).2.1 := by
  rw [solve_eq]
  exact h.step_conclude _

theorem step_perform (engine : Engine α σ κ) (h : Handle α κ) (s : σ) (call : Call α) :
    h.Step call (h.perform engine s call).1 (h.perform engine s call).2.1 := by
  cases call with
  | set setting =>
      rcases h.guards_apply setting with ⟨hcheck, hrun⟩ | ⟨e, hcheck, hrun⟩
      · simp only [perform, hrun]
        exact .assigned hcheck
      · simp only [perform, hrun]
        exact .refused hcheck
  | attachMonitor => exact .attached
  | solve => exact h.step_solve engine s

variable {h h' : Handle α κ} {call : Call α} {reply : Reply α}

/-- A call that fails leaves the handle as it was. -/
theorem Step.eq_of_not_isOk (hstep : h.Step call reply h') (hfail : reply.isOk = false) :
    h' = h := by
  cases hstep with
  | refused => rfl
  | failed => rfl
  | assigned => cases hfail
  | attached => cases hfail
  | completed => cases hfail

theorem Step.artifact (hstep : h.Step call reply h') : h'.artifact = h.artifact := by
  cases hstep with
  | assigned => exact artifact_assign
  | _ => rfl

end Steps

end Handle

/-! ### Compilations -/

namespace Problem

variable {engine : Engine α σ κ} {p : Problem α} {s : σ}

theorem result_generate :
    (p.generate engine s).1.result =
      (engine.compile p s).1.mapError fun text => .compilation p.model (.engine text) := by
  unfold generate
  split
  · next heq =>
      rw [heq]
      rfl
  · next heq =>
      rw [heq]
      rfl

variable [Scalar α] [Spectral α]

theorem checkCompilable_eq_ok : p.checkCompilable = .ok () ↔ p.validate = .ok () := mapError_eq_ok

theorem result_compile :
    (p.compile engine s).1.result = p.checkCompilable.bind fun _ =>
      ((engine.compile p s).1.mapError fun text => .compilation p.model (.engine text)).map
        (Handle.start p) := by
  rw [compile]
  cases p.checkCompilable with
  | error e => rfl
  | ok =>
      simp only [Reported.result_bind, result_generate]
      cases (engine.compile p s).1 <;> rfl

theorem compile_eq_ok {h : Handle α κ} :
    (p.compile engine s).1.result = .ok h ↔
      p.validate = .ok () ∧
        ∃ artifact, (engine.compile p s).1 = .ok artifact ∧ Handle.start p artifact = h := by
  rw [← checkCompilable_eq_ok, result_compile]
  cases p.checkCompilable with
  | error e => simp [Except.bind]
  | ok => cases (engine.compile p s).1 <;> simp [Except.bind, Except.mapError, Except.map]

end Problem

end RecedingHorizon
