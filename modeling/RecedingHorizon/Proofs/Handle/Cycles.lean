import Mathlib
import RecedingHorizon.Proofs.Handle.Finite

/-!
Counted cycles. A solve that has a solution counts one cycle, tells the attached monitor of it under
the number of the cycle, and logs one warning if the solver did not converge; nothing else counts,
tells or logs anything. So the counter, the record of the monitor and the log of a run all follow
from the solutions of the run, taken in order and numbered from where the counter stood.
-/

namespace RecedingHorizon

variable {α κ σ : Type}

/-! ### Solutions of a run -/

/-- The solution that is returned to the caller, if the reply has one. -/
def Reply.solution? : Reply α → Option (Solution α)
  | .solved report => report.result.toOption
  | _ => none

def Reply.notices : Reply α → List (Notice α)
  | .solved report => report.notices
  | _ => []

def completed (trace : List (Call α × Reply α)) : List (Solution α) :=
  trace.filterMap fun event => event.2.solution?

/-- What there is to tell of solutions whose cycles are numbered from `first` on. -/
def updates (first : Nat) (solutions : List (Solution α)) : List Update :=
  (solutions.zipIdx first).map fun (solution, cycle) => ⟨cycle, solution.status⟩

/-- One warning, with the cycle and the exit, unless the solver converged. -/
def Update.warnings (update : Update) : List (Notice α) :=
  if update.status.exit = .converged then []
  else [.unconverged update.cycle update.status.exit]

theorem completed_append (earlier later : List (Call α × Reply α)) :
    completed (earlier ++ later) = completed earlier ++ completed later :=
  List.filterMap_append

theorem updates_append (first : Nat) (earlier later : List (Solution α)) :
    updates first (earlier ++ later) =
      updates first earlier ++ updates (first + earlier.length) later := by
  rw [updates, List.zipIdx_append, List.map_append]
  rfl

theorem severity_of_mem_warnings {update : Update} {notice : Notice α}
    (hmem : notice ∈ update.warnings) : notice.severity = .warning := by
  unfold Update.warnings at hmem
  split at hmem
  · cases hmem
  · rw [List.mem_singleton.1 hmem]
    rfl

namespace Handle

/-! ### One call -/

theorem solveNotices_eq (h : Handle α κ) (status : SolveStatus) :
    h.solveNotices status = Update.warnings ⟨h.cycles, status⟩ := by
  simp only [solveNotices, SolveStatus.converged, Update.warnings, decide_eq_true_eq]

/-- A solve either completes a cycle, or fails without a word and changes nothing. -/
theorem Step.solve_cases [Scalar α] {h h' : Handle α κ}
    {report : Reported α (ProblemError α) (Solution α)} (hstep : h.Step .solve (.solved report) h') :
    (∃ x : Solution α, report = ⟨Update.warnings ⟨h.cycles, x.status⟩, .ok x⟩ ∧
        h' = h.advance x.status) ∨
      ∃ e, report = .silent (.error e) ∧ h' = h := by
  cases hstep with
  | completed x => exact .inl ⟨x, by rw [solveNotices_eq], rfl⟩
  | failed e => exact .inr ⟨e, rfl, rfl⟩

/-! ### Runs -/

/-- Between the handles lie the calls of the trace, and every solution among them is counted, logged,
and told to the monitor if one was attached before and none since. -/
structure Counts (h : Handle α κ) (trace : List (Call α × Reply α)) (h' : Handle α κ) : Prop where
  cycles : h'.cycles = h.cycles + (completed trace).length
  notices : trace.flatMap (fun event => event.2.notices) =
    (updates h.cycles (completed trace)).flatMap Update.warnings
  monitor : (∀ event ∈ trace, event.1 ≠ .attachMonitor) →
    h'.monitor = h.monitor.map (· ++ updates h.cycles (completed trace))

theorem Counts.refl (h : Handle α κ) : Counts h [] h where
  cycles := rfl
  notices := rfl
  monitor _ := by simp [completed, updates]

theorem Counts.trans {h middle h' : Handle α κ} {earlier later : List (Call α × Reply α)}
    (hearlier : Counts h earlier middle) (hlater : Counts middle later h') :
    Counts h (earlier ++ later) h' where
  cycles := by
    rw [hlater.cycles, hearlier.cycles, completed_append, List.length_append, Nat.add_assoc]
  notices := by
    rw [List.flatMap_append, hearlier.notices, hlater.notices, hearlier.cycles, completed_append,
      updates_append, List.flatMap_append]
  monitor hcalls := by
    rw [List.forall_mem_append] at hcalls
    rw [hlater.monitor hcalls.2, hearlier.monitor hcalls.1, hearlier.cycles, completed_append,
      updates_append, Option.map_map]
    congr 1
    funext told
    exact List.append_assoc _ _ _

/-- A solve that completes a cycle. -/
theorem Counts.advance (h : Handle α κ) (x : Solution α) :
    Counts h [(.solve, .solved ⟨Update.warnings ⟨h.cycles, x.status⟩, .ok x⟩)]
      (h.advance x.status) where
  cycles := rfl
  notices := by simp [completed, updates, Reply.solution?, Reply.notices, Except.toOption]
  monitor _ := rfl

/-- A call that completes nothing. -/
theorem Counts.of_kept {h h' : Handle α κ} {call : Call α} {reply : Reply α}
    (hsolution : reply.solution? = none) (hnotices : reply.notices = [])
    (hcycles : h'.cycles = h.cycles)
    (hmonitor : call ≠ .attachMonitor → h'.monitor = h.monitor) :
    Counts h [(call, reply)] h' := by
  have hnone : completed [(call, reply)] = [] := by simp [completed, hsolution]
  refine ⟨?_, ?_, fun hcalls => ?_⟩
  · rw [hcycles, hnone]
    rfl
  · rw [hnone]
    simpa [updates] using hnotices
  · rw [hmonitor (hcalls _ (List.mem_singleton_self _)), hnone]
    exact (Counts.refl h).monitor nofun

variable [Scalar α] (engine : Engine α σ κ)

theorem Step.counts {h h' : Handle α κ} {call : Call α} {reply : Reply α}
    (hstep : h.Step call reply h') : Counts h [(call, reply)] h' := by
  cases hstep with
  | assigned => exact .of_kept rfl rfl cycles_assign fun _ => monitor_assign
  | refused => exact .of_kept rfl rfl rfl fun _ => rfl
  | attached => exact .of_kept rfl rfl rfl fun hcall => absurd rfl hcall
  | completed x => exact h.solveNotices_eq x.status ▸ .advance h x
  | failed => exact .of_kept rfl rfl rfl fun _ => rfl

theorem counts_run (h : Handle α κ) (s : σ) (calls : List (Call α)) :
    Counts h (h.run engine s calls).1 (h.run engine s calls).2.1 := by
  induction calls generalizing h s with
  | nil => exact .refl h
  | cons call calls ih => exact (h.step_perform engine s call).counts.trans (ih _ _)

theorem map_fst_run (h : Handle α κ) (s : σ) (calls : List (Call α)) :
    (h.run engine s calls).1.map Prod.fst = calls := by
  induction calls generalizing h s with
  | nil => rfl
  | cons call calls ih => exact congrArg _ (ih _ _)

/-- A monitor has been told of the solutions since it was attached. -/
theorem monitor_run_attachMonitor (h : Handle α κ) (s : σ) {calls : List (Call α)}
    (hcalls : ∀ call ∈ calls, call ≠ .attachMonitor) :
    (h.attachMonitor.run engine s calls).2.1.monitor =
      some (updates h.cycles (completed (h.attachMonitor.run engine s calls).1)) := by
  refine (counts_run engine h.attachMonitor s calls).monitor fun event hevent => hcalls _ ?_
  rw [← map_fst_run engine h.attachMonitor s calls]
  exact List.mem_map_of_mem hevent

/-! ### Issued handles -/

/-- After any calls on a handle the cycles are the solves that had a solution. A solve has one if
the engine answers with an action for every input. It then advances the count, tells the monitor
of its cycle and logs a warning if the solver did not converge; a solve without a solution does
nothing. Whenever a monitor is attached, it is told of every solution from then on until the next
one is attached, in order and numbered from the count at the time. -/
theorem completed_of_run [Spectral Float] {engine : Engine Float σ κ} {p : Problem Float}
    {issued h : Handle Float κ} {s s' : σ} {calls : List (Call Float)}
    {trace : List (Call Float × Reply Float)}
    (hissued : issued.Issued engine p) (hrun : issued.run engine s calls = (trace, h, s')) :
    (h.cycles = (completed trace).length ∧
      trace.flatMap (fun event => event.2.notices) =
        (updates 0 (completed trace)).flatMap Update.warnings) ∧
    (∀ x, (h.solve engine s').1.result = .ok x ↔
      ∃ output, (engine.solve issued.artifact h.input s').1 = .ok output ∧
        output.action.length = p.dimensions.inputs ∧
        x = ⟨output.action, output.exit, output.iterations⟩) ∧
    (∀ x, (h.solve engine s').1.result = .ok x →
      (h.solve engine s').1.notices = Update.warnings ⟨h.cycles, x.status⟩ ∧
      (∀ notice ∈ (h.solve engine s').1.notices, notice.severity = .warning) ∧
      (h.solve engine s').2.1 = { h with
        cycles := h.cycles + 1
        monitor := h.monitor.map (· ++ [⟨h.cycles, x.status⟩]) }) ∧
    (∀ e, (h.solve engine s').1.result = .error e →
      (h.solve engine s').1.notices = [] ∧ (h.solve engine s').2.1 = h) ∧
    ∀ later, (∀ call ∈ later, call ≠ .attachMonitor) →
      (h.attachMonitor.run engine s' later).2.1.monitor =
        some (updates h.cycles (completed (h.attachMonitor.run engine s' later).1)) := by
  obtain ⟨hvalid, artifact, rfl⟩ := hissued.eq_start
  have hp := Problem.validate_eq_ok.1 hvalid
  have hcounts := counts_run engine (start p artifact) s calls
  have hstores := (Stores.refl (start p artifact)).run engine hp.reference hp.reference.parameters s
    calls
  rw [hrun] at hcounts hstores
  refine ⟨⟨hcounts.cycles.trans (Nat.zero_add _), hcounts.notices⟩, fun x => ?_, fun x hx => ?_,
    fun e he => ?_, fun later hlater => monitor_run_attachMonitor engine h s' hlater⟩
  · rw [solve_eq, conclude_eq_ok, hstores.artifact, hstores.problem]
    rfl
  · rcases (h.step_solve engine s').solve_cases with ⟨y, hreport, hnext⟩ | ⟨e, hreport, -⟩
    · rw [hreport] at hx ⊢
      cases hx
      exact ⟨rfl, fun _ => severity_of_mem_warnings, hnext⟩
    · rw [hreport] at hx
      cases hx
  · rcases (h.step_solve engine s').solve_cases with ⟨y, hreport, -⟩ | ⟨e', hreport, hnext⟩
    · rw [hreport] at he
      cases he
    · exact ⟨by rw [hreport]; rfl, hnext⟩

end Handle

namespace Tank

/-- An engine that converges, fails, runs out of iterations and answers without an action, in turn. -/
def moodyEngine : Engine Float Nat Unit where
  compile _ solves := (.ok (), solves)
  solve _ _ solves :=
    (match solves % 4 with
      | 0 => .ok ⟨[0.5], .converged, 3⟩
      | 1 => .error "infeasible"
      | 2 => .ok ⟨[0.5], .maxIterations, 100⟩
      | _ => .ok ⟨[], .converged, 1⟩, solves + 1)

end Tank

namespace Handle

/-- The monitor comes too late for the first of the two cycles. -/
theorem completed_of_run_tank :
    ∃ trace h s, (start Tank.problem ()).run Tank.moodyEngine 0 [.solve, .solve] = (trace, h, s) ∧
      h.cycles = 1 ∧
      (h.attachMonitor.run Tank.moodyEngine s [.solve, .solve]).2.1.monitor =
        some [⟨1, .maxIterations, 100⟩] := by
  have hcompile : (Tank.problem.compile Tank.moodyEngine 0).1.result =
      .ok (start Tank.problem ()) :=
    Problem.compile_eq_ok.2 ⟨Tank.validate_problem, (), rfl, rfl⟩
  have hrun : (start Tank.problem ()).run Tank.moodyEngine 0 [.solve, .solve] = (_, _, _) := rfl
  obtain ⟨⟨hcycles, -⟩, -, -, -, hmonitor⟩ := completed_of_run (.compiled hcompile) hrun
  refine ⟨_, _, _, hrun, hcycles, (hmonitor [.solve, .solve] ?_).trans rfl⟩
  simp

end Handle

end RecedingHorizon
