import Mathlib
import RecedingHorizon.Proofs.Cache.Session

/-!
Handles do not interfere, even if they share a compiled solver and an engine with a state. An event
that does not call a handle leaves it as it is, so what a handle answers depends on the calls on it
and on the states that the engine happens to be in. If these states decide neither whether a solver
fails nor how long its action is, then the answers are alike in all interleavings of the calls, and
as they would be if there were no other handles.
-/

namespace RecedingHorizon

variable {α κ σ : Type}

/-! ### Answers that are alike -/

/-- The length of the action, if there is one. -/
def actionLength? : Except String (EngineOutput α) → Option Nat
  | .error _ => none
  | .ok output => some output.action.length

/-- What the engine must have answered. -/
def Solution.output (solution : Solution α) : EngineOutput α :=
  ⟨solution.action, solution.status.exit, solution.status.iterations⟩

/-- Settings come to the same, and solves succeed or fail in the same way, on answers of the engine
that are similar. -/
inductive Reply.Alike
    (Similar : Except String (EngineOutput α) → Except String (EngineOutput α) → Prop) :
    Reply α → Reply α → Prop where
  | set (result : Checked α Unit) : Reply.Alike Similar (.set result) (.set result)
  | attached : Reply.Alike Similar .attached .attached
  | solution {report report' : Reported α (ProblemError α) (Solution α)} {x x' : Solution α}
      (h : report.result = .ok x) (h' : report'.result = .ok x')
      (hsimilar : Similar (.ok x.output) (.ok x'.output)) :
      Reply.Alike Similar (.solved report) (.solved report')
  | failure {report report' : Reported α (ProblemError α) (Solution α)} {text text' : String}
      (h : report.result = .error (.solver (.engine text)))
      (h' : report'.result = .error (.solver (.engine text')))
      (hsimilar : Similar (.error text) (.error text')) :
      Reply.Alike Similar (.solved report) (.solved report')
  /-- Both actions have the same wrong length. -/
  | misfit {report report' : Reported α (ProblemError α) (Solution α)} {inputs length : Nat}
      (h : report.result = .error (.solver (.validation (.dimension "u0" inputs length))))
      (h' : report'.result = .error (.solver (.validation (.dimension "u0" inputs length)))) :
      Reply.Alike Similar (.solved report) (.solved report')

/-- The replies are alike, and the handles hold the same values afterwards. -/
inductive Answer.Alike
    (Similar : Except String (EngineOutput Float) → Except String (EngineOutput Float) → Prop) :
    Answer → Answer → Prop where
  | replied {reply reply' : Reply Float} (h : reply.Alike Similar reply')
      (reading : Reading Float) :
      Answer.Alike Similar (.replied reply reading) (.replied reply' reading)

namespace Handle

/-- The handles differ in their monitors at most. -/
def Twin (h h' : Handle α κ) : Prop := ∃ monitor, h' = h.equip h.artifact monitor

theorem Twin.refl (h : Handle α κ) : h.Twin h := ⟨h.monitor, rfl⟩

theorem Twin.reading_eq {h h' : Handle α κ} (htwin : h.Twin h') : h.reading = h'.reading := by
  obtain ⟨monitor, rfl⟩ := htwin
  rfl

variable {Similar : Except String (EngineOutput α) → Except String (EngineOutput α) → Prop}
  {engine : Engine α σ κ} {h h' : Handle α κ}

theorem Twin.conclude (htwin : h.Twin h') {answer answer' : Except String (EngineOutput α)}
    (hsimilar : Similar answer answer') (hlength : actionLength? answer = actionLength? answer') :
    Reply.Alike Similar (.solved (h.conclude answer).1) (.solved (h'.conclude answer').1) ∧
      (h.conclude answer).2.Twin (h'.conclude answer').2 := by
  obtain ⟨monitor, rfl⟩ := htwin
  cases answer with
  | error text =>
      cases answer' with
      | error text' => exact ⟨.failure rfl rfl hsimilar, monitor, rfl⟩
      | ok output' => cases hlength
  | ok output =>
      cases answer' with
      | error text' => cases hlength
      | ok output' =>
          have hlength : output.action.length = output'.action.length := Option.some.inj hlength
          by_cases hfits : output'.action.length = h.problem.dimensions.inputs
          · simp only [Handle.conclude, hlength, if_pos hfits]
            exact ⟨.solution rfl rfl hsimilar, _, rfl⟩
          · simp only [Handle.conclude, hlength, if_neg hfits]
            exact ⟨.misfit rfl rfl, monitor, rfl⟩

section Calls

variable [Scalar α]

/-- One call on two twins, the engine being in different states. -/
theorem Twin.perform (htwin : h.Twin h')
    (hlength : ∀ a b, Similar a b → actionLength? a = actionLength? b)
    (hsolve : ∀ input s t,
      Similar (engine.solve h.artifact input s).1 (engine.solve h.artifact input t).1)
    (s t : σ) (call : Call α) :
    Reply.Alike Similar (h.perform engine s call).1 (h'.perform engine t call).1 ∧
      (h.perform engine s call).2.1.Twin (h'.perform engine t call).2.1 := by
  cases call with
  | set setting =>
      obtain ⟨monitor, rfl⟩ := htwin
      simp only [Handle.perform, run_apply_equip]
      refine ⟨.set _, monitor, ?_⟩
      rw [(kept_run_apply setting).1]
  | attachMonitor =>
      obtain ⟨monitor, rfl⟩ := htwin
      exact ⟨.attached, some [], rfl⟩
  | solve =>
      have hsimilar : Similar (engine.solve h.artifact h.input s).1
          (engine.solve h'.artifact h'.input t).1 := by
        obtain ⟨monitor, rfl⟩ := htwin
        exact hsolve h.input s t
      simp only [Handle.perform, solve_eq]
      exact htwin.conclude hsimilar (hlength _ _ hsimilar)

end Calls

/-! ### Runs -/

variable {Similar : Except String (EngineOutput Float) → Except String (EngineOutput Float) → Prop}
  {engine : Engine Float σ κ} {h h' : Handle Float κ}

/-- What the handle can answer to the calls, the engine being in some state at each of them. -/
inductive Yields (engine : Engine Float σ κ) :
    Handle Float κ → List (Call Float) → List Answer → Prop where
  | nil (h : Handle Float κ) : Yields engine h [] []
  | cons {h : Handle Float κ} {call : Call Float} {calls : List (Call Float)}
      {answers : List Answer} (s : σ)
      (hrest : Yields engine (h.perform engine s call).2.1 calls answers) :
      Yields engine h (call :: calls)
        (.replied (h.perform engine s call).1 (h.perform engine s call).2.1.reading :: answers)

/-- Whatever states the engine is in, twins answer alike. -/
theorem Yields.alike
    (hlength : ∀ a b, Similar a b → actionLength? a = actionLength? b)
    {calls : List (Call Float)} {answers answers' : List Answer}
    (hyields : h.Yields engine calls answers) (hyields' : h'.Yields engine calls answers')
    (hsolve : ∀ input s t,
      Similar (engine.solve h.artifact input s).1 (engine.solve h.artifact input t).1)
    (htwin : h.Twin h') : List.Forall₂ (Answer.Alike Similar) answers answers' := by
  induction hyields generalizing h' answers' with
  | nil h =>
      cases hyields'
      exact .nil
  | @cons h call calls answers s hrest ih =>
      cases hyields' with
      | cons t hrest' =>
          obtain ⟨hreply, hnext⟩ := htwin.perform hlength hsolve s t call
          rw [← hnext.reading_eq]
          refine .cons (.replied hreply _) (ih hrest' ?_ hnext)
          rw [(h.step_perform engine s call).artifact]
          exact hsolve

end Handle

/-! ### Sessions -/

/-- The call on the handle with the given number, if the event is one. -/
def Event.callOn? (number : Nat) : Event → Option (Call Float)
  | .request _ => none
  | .call other made => if other = number then some made else none

def callsOn (number : Nat) (events : List Event) : List (Call Float) :=
  events.filterMap (Event.callOn? number)

theorem callsOn_map_call (number : Nat) (calls : List (Call Float)) :
    callsOn number (calls.map (.call number)) = calls := by
  simp [callsOn, List.filterMap_map, Function.comp_def, Event.callOn?]

/-- The answers to the calls on a handle. -/
def answersOn (number : Nat) (trace : List (Event × Answer)) : List Answer :=
  trace.filterMap fun (event, answer) => (event.callOn? number).map fun _ => answer

namespace Session

variable [Spectral Float] {engine : Engine Float σ κ} {session : Session κ σ} {h : Handle Float κ}
  {number : Nat}

/-- An event that does not call a handle leaves it as it is. -/
theorem getElem?_handles_step (hnumber : session.handles[number]? = some h) {event : Event}
    (hother : event.callOn? number = none) :
    (session.step engine event).2.handles[number]? = some h := by
  cases event with
  | request p =>
      have hlt := (List.getElem?_eq_some_iff.1 hnumber).1
      simp only [step, List.getElem?_append_left hlt, hnumber]
  | call other call =>
      have hne : other ≠ number := fun heq => by simp [Event.callOn?, heq] at hother
      simp only [step]
      split
      · simp only [List.getElem?_set_ne hne, hnumber]
      · exact hnumber

theorem yields_run (hnumber : session.handles[number]? = some h) (events : List Event) :
    h.Yields engine (callsOn number events) (answersOn number (session.run engine events).1) := by
  induction events generalizing session h with
  | nil => exact .nil h
  | cons event events ih =>
      cases hcall : event.callOn? number with
      | none =>
          simp only [callsOn, answersOn, run, List.filterMap_cons, hcall, Option.map_none]
          exact ih (getElem?_handles_step hnumber hcall)
      | some call =>
          simp only [callsOn, answersOn, run, List.filterMap_cons, hcall, Option.map_some]
          cases event with
          | request p => cases hcall
          | call other call' =>
              simp only [Event.callOn?, Option.ite_none_right_eq_some] at hcall
              obtain ⟨rfl, hsame⟩ := hcall
              cases hsame
              have hlt := (List.getElem?_eq_some_iff.1 hnumber).1
              simp only [step_call hnumber]
              exact .cons session.state (ih (List.getElem?_set_self hlt))

/-- Suppose that answers of the engine can only be similar if they agree on failure and on the
length of the action, and that the answers of a compiled solver to one input are similar whatever
state the engine is in. Then a handle answers alike in any two sequences of events with the same
calls on it, from wherever a session has come to: settings have the same results, solves succeed or
fail in the same way, and the handle holds the same values and counts the same cycles after each
call. It also answers as it would if it were used alone, from any state of the engine. -/
theorem answers_alike
    {Similar : Except String (EngineOutput Float) → Except String (EngineOutput Float) → Prop}
    (hlength : ∀ a b, Similar a b → actionLength? a = actionLength? b)
    (hsolve : ∀ q s artifact, (engine.compile q s).1 = .ok artifact →
      ∀ input t t', Similar (engine.solve artifact input t).1 (engine.solve artifact input t').1)
    {s : σ} {before : List Event} (hbefore : ((start s).run engine before).2 = session)
    (hnumber : number < session.handles.length) :
    (∀ one other, callsOn number one = callsOn number other →
      List.Forall₂ (Answer.Alike Similar) (answersOn number (session.run engine one).1)
        (answersOn number (session.run engine other).1)) ∧
    ∀ events t, List.Forall₂ (Answer.Alike Similar)
      (answersOn number (session.run engine events).1)
      (answersOn number (({ session with state := t } : Session κ σ).run engine
        ((callsOn number events).map (.call number))).1) := by
  have hsound : session.Sound engine := hbefore ▸ (sound_start engine s).run before
  have hget : session.handles[number]? = some session.handles[number] :=
    List.getElem?_eq_getElem hnumber
  obtain ⟨q, s', -, -, hcompile⟩ := (hsound.handles _ (List.getElem_mem hnumber)).source
  have halike {calls : List (Call Float)} {answers answers' : List Answer}
      (hyields : (session.handles[number]).Yields engine calls answers)
      (hyields' : (session.handles[number]).Yields engine calls answers') :
      List.Forall₂ (Answer.Alike Similar) answers answers' :=
    hyields.alike hlength hyields' (hsolve q s' _ hcompile) (.refl _)
  refine ⟨fun one other hcalls => ?_, fun events t => ?_⟩
  · have hother : (session.handles[number]).Yields engine (callsOn number other) _ :=
      yields_run hget other
    rw [← hcalls] at hother
    exact halike (yields_run hget one) hother
  · let alone : Session κ σ := { session with state := t }
    have hget' : alone.handles[number]? = some session.handles[number] := hget
    have halone : (session.handles[number]).Yields engine _ _ :=
      yields_run hget' ((callsOn number events).map (.call number))
    rw [callsOn_map_call] at halone
    exact halike (yields_run hget events) halone

end Session

namespace Tank

/-- An engine that converges in every other solve only, whichever solver it is. -/
def alternating : Engine Float Nat Unit where
  compile _ solves := (.ok (), solves)
  solve _ _ solves :=
    (.ok ⟨[0.5], if solves % 2 = 0 then .converged else .maxIterations, 1⟩, solves + 1)

def SameButExit (answer answer' : Except String (EngineOutput Float)) : Prop :=
  answer.map (fun output => (output.action, output.iterations)) =
    answer'.map fun output => (output.action, output.iterations)

theorem SameButExit.actionLength?_eq {answer answer' : Except String (EngineOutput Float)}
    (h : SameButExit answer answer') : actionLength? answer = actionLength? answer' := by
  cases answer <;> cases answer' <;> simp_all [SameButExit, Except.map, actionLength?]

/-- The tank and the full tank, which share a solver. -/
def tanks : Session Unit Nat :=
  ((Session.start 0).run alternating [.request problem, .request full]).2

theorem tanks_eq : tanks = ⟨Cache.empty.insert problem.key (),
    [Handle.start problem (), Handle.start full ()], 0⟩ := by
  rw [tanks, Session.run_requests_of_key_eq validate_problem validate_full key_full rfl]

def exit? : Answer → Option ExitStatus
  | .replied (.solved report) _ => report.result.toOption.map fun x => x.status.exit
  | _ => none

end Tank

namespace Session

/-- The tanks are solved in turn, and only the exit tells which one was first. -/
theorem answers_alike_tank :
    List.Forall₂ (Answer.Alike Tank.SameButExit)
        (answersOn 1 (Tank.tanks.run Tank.alternating [.call 0 .solve, .call 1 .solve]).1)
        (answersOn 1 (Tank.tanks.run Tank.alternating [.call 1 .solve, .call 0 .solve]).1) ∧
      (answersOn 1 (Tank.tanks.run Tank.alternating
        [.call 0 .solve, .call 1 .solve]).1).map Tank.exit? = [some .maxIterations] ∧
      (answersOn 1 (Tank.tanks.run Tank.alternating
        [.call 1 .solve, .call 0 .solve]).1).map Tank.exit? = [some .converged] := by
  have hnumber : 1 < Tank.tanks.handles.length := by
    rw [Tank.tanks_eq]
    decide
  have hbefore : ((start 0).run Tank.alternating
      [.request Tank.problem, .request Tank.full]).2 = Tank.tanks := by
    rw [Tank.tanks]
  have hsolve : ∀ q s artifact, (Tank.alternating.compile q s).1 = .ok artifact →
      ∀ input t t', Tank.SameButExit (Tank.alternating.solve artifact input t).1
        (Tank.alternating.solve artifact input t').1 :=
    fun _ _ _ _ _ _ _ => rfl
  obtain ⟨halike, -⟩ :=
    answers_alike (fun _ _ h => h.actionLength?_eq) hsolve hbefore hnumber
  refine ⟨halike _ _ rfl, ?_, ?_⟩
  · rw [Tank.tanks_eq]
    rfl
  · rw [Tank.tanks_eq]
    rfl

end Session

end RecedingHorizon
