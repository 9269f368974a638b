import Mathlib
import RecedingHorizon.Proofs.Cache.Session

/-!
What a session asks its engine. A traced engine keeps every query in its state and marks every
artifact with the problem that it was compiled from; a session cannot tell it from the engine
itself. A request asks for a compilation exactly if the problem is valid and unknown to the cache.
-/

namespace RecedingHorizon

variable {α κ σ : Type}

/-- A query to an engine: to compile a problem, which may have failed, or to solve with an artifact
that was compiled from the given problem. -/
inductive Query (α : Type) where
  | compile (p : Problem α) (compiled : Bool)
  | solve (source : Problem α) (input : SolveInput α)

/-- The engine, which keeps all queries and marks the artifacts. -/
def Engine.traced (engine : Engine α σ κ) : Engine α (σ × List (Query α)) (Problem α × κ) where
  compile p s :=
    ((engine.compile p s.1).1.map (p, ·), (engine.compile p s.1).2,
      s.2 ++ [.compile p (engine.compile p s.1).1.isOk])
  solve artifact input s :=
    ((engine.solve artifact.2 input s.1).1, (engine.solve artifact.2 input s.1).2,
      s.2 ++ [.solve artifact.1 input])

/-! ### Without the marks -/

/-- The handle on the artifact itself. -/
abbrev Handle.untraced (h : Handle α (Problem α × κ)) : Handle α κ := h.equip h.artifact.2 h.monitor

def Cache.untraced (c : Cache (Problem Float × κ)) : Cache κ :=
  ⟨c.entries.map fun entry => (entry.1, entry.2.2)⟩

def Session.untraced (session : Session (Problem Float × κ) (σ × List (Query Float))) :
    Session κ σ :=
  ⟨session.cache.untraced, session.handles.map Handle.untraced, session.state.1⟩

namespace Handle

theorem conclude_untraced (h : Handle α (Problem α × κ)) (answer : Except String (EngineOutput α)) :
    h.untraced.conclude answer = ((h.conclude answer).1, (h.conclude answer).2.untraced) := by
  cases answer with
  | error text => rfl
  | ok output =>
      simp only [conclude]
      split <;> rfl

/-- What a call asks the engine. -/
def asked (h : Handle α (Problem α × κ)) (call : Call α) : List (Query α) :=
  (h.inputs call).map (.solve h.artifact.1)

theorem eq_of_mem_asked {h : Handle α (Problem α × κ)} {call : Call α} {query : Query α}
    (hquery : query ∈ h.asked call) : query = .solve h.artifact.1 h.input := by
  cases call with
  | solve => exact List.mem_singleton.1 hquery
  | _ => cases hquery

variable [Scalar α] (engine : Engine α σ κ) (h : Handle α (Problem α × κ))

theorem perform_untraced (s : σ × List (Query α)) (call : Call α) :
    h.untraced.perform engine s.1 call =
        ((h.perform engine.traced s call).1, (h.perform engine.traced s call).2.1.untraced,
          (h.perform engine.traced s call).2.2.1) ∧
      (h.perform engine.traced s call).2.2.2 = s.2 ++ h.asked call := by
  cases call with
  | set setting =>
      have hrun : (apply setting).run h.untraced = (((apply setting).run h).1,
          ((apply setting).run h).2.equip h.artifact.2 h.monitor) := run_apply_equip setting
      obtain ⟨hartifact, hmonitor⟩ := kept_run_apply (h := h) setting
      rw [← hartifact, ← hmonitor] at hrun
      simp only [perform, hrun, asked, inputs, List.map_nil, List.append_nil, and_self]
  | attachMonitor => exact ⟨rfl, (List.append_nil s.2).symm⟩
  | solve =>
      simp only [perform, solve_eq, conclude_untraced]
      exact ⟨rfl, rfl⟩

end Handle

namespace Cache

theorem find?_untraced (c : Cache (Problem Float × κ)) (key : Bytes) :
    c.untraced.find? key = (c.find? key).map Prod.snd := by
  simp only [find?, untraced]
  induction c.entries with
  | nil => rfl
  | cons entry entries ih =>
      obtain ⟨known, artifact⟩ := entry
      simp only [List.map_cons, List.lookup_cons, ih]
      cases key == known <;> rfl

variable [Spectral Float] (engine : Engine Float σ κ)

/-- What a request asks the engine. -/
def asked (c : Cache κ) (p : Problem Float) (s : σ) : List (Query Float) :=
  if p.validate = .ok () ∧ c.find? p.key = none then [.compile p (engine.compile p s).1.isOk]
  else []

theorem handle_untraced (c : Cache (Problem Float × κ)) (p : Problem Float)
    (s : σ × List (Query Float)) :
    c.untraced.handle engine p s.1 =
        (⟨(c.handle engine.traced p s).1.notices,
            (c.handle engine.traced p s).1.result.map Handle.untraced⟩,
          (c.handle engine.traced p s).2.1.untraced, (c.handle engine.traced p s).2.2.1) ∧
      (c.handle engine.traced p s).2.2.2 = s.2 ++ c.untraced.asked engine p s.1 := by
  cases hvalid : p.checkCompilable with
  | error e =>
      have hinvalid : ¬ p.validate = .ok () := fun h => by
        cases hvalid.symm.trans (Problem.checkCompilable_eq_ok.2 h)
      simp only [handle, asked, hvalid, hinvalid, false_and, if_false, List.append_nil]
      exact ⟨rfl, trivial⟩
  | ok =>
      have hvalidate := Problem.checkCompilable_eq_ok.1 hvalid
      cases hfind : c.find? p.key with
      | some artifact =>
          simp only [handle, asked, hvalid, find?_untraced, hfind, Option.map_some, reduceCtorEq,
            and_false, if_false, List.append_nil]
          exact ⟨rfl, trivial⟩
      | none =>
          simp only [handle, asked, hvalid, hvalidate, find?_untraced, hfind, Option.map_none,
            and_self, if_true, Problem.generate, Engine.traced]
          rcases engine.compile p s.1 with ⟨_ | artifact, s'⟩ <;> exact ⟨rfl, rfl⟩

end Cache

/-! ### Runs -/

namespace Session

variable [Spectral Float] (engine : Engine Float σ κ)

/-- What an event asks the engine. -/
def asked (session : Session (Problem Float × κ) (σ × List (Query Float))) :
    Event → List (Query Float)
  | .request p => session.untraced.cache.asked engine p session.state.1
  | .call number call => (session.handles[number]?.map (Handle.asked · call)).getD []

variable {engine} in
/-- A call asks its handle's artifact for a solve at most. -/
theorem exists_of_mem_asked_call {session : Session (Problem Float × κ) (σ × List (Query Float))}
    {number : Nat} {call : Call Float} {query : Query Float}
    (hquery : query ∈ session.asked engine (.call number call)) :
    ∃ h ∈ session.handles, query = .solve h.artifact.1 h.input := by
  simp only [asked] at hquery
  cases hnumber : session.handles[number]? with
  | none => simp [hnumber] at hquery
  | some h =>
      simp only [hnumber, Option.map_some, Option.getD_some] at hquery
      exact ⟨h, List.mem_of_getElem? hnumber, Handle.eq_of_mem_asked hquery⟩

theorem step_untraced (session : Session (Problem Float × κ) (σ × List (Query Float)))
    (event : Event) :
    session.untraced.step engine event =
        ((session.step engine.traced event).1, (session.step engine.traced event).2.untraced) ∧
      (session.step engine.traced event).2.state.2 =
        session.state.2 ++ session.asked engine event := by
  cases event with
  | request p =>
      obtain ⟨hhandle, hlog⟩ := session.cache.handle_untraced engine p session.state
      refine ⟨?_, hlog⟩
      simp only [step, untraced, hhandle]
      cases (session.cache.handle engine.traced p session.state).1.result <;>
        simp [Except.map, Except.toOption]
  | call number call =>
      simp only [step, asked, untraced, List.getElem?_map]
      cases session.handles[number]? with
      | none => simp
      | some h =>
          obtain ⟨hperform, hlog⟩ := h.perform_untraced engine session.state call
          simp only [Option.map_some, hperform, hlog, List.map_set]
          exact ⟨rfl, rfl⟩

theorem run_untraced (session : Session (Problem Float × κ) (σ × List (Query Float)))
    (events : List Event) :
    session.untraced.run engine events =
      ((session.run engine.traced events).1, (session.run engine.traced events).2.untraced) := by
  induction events generalizing session with
  | nil => rfl
  | cons event events ih => simp only [run, (session.step_untraced engine event).1, ih]

/-- What the engine is asked in a session from the start. -/
def queries (s : σ) (events : List Event) : List (Query Float) :=
  ((start (s, [])).run engine.traced events).2.state.2

theorem queries_append_singleton (s : σ) (events : List Event) (event : Event) :
    queries engine s (events ++ [event]) =
      queries engine s events ++
        ((start (s, [])).run engine.traced events).2.asked engine event := by
  rw [queries, run_append_singleton]
  exact (step_untraced engine _ event).2

theorem queries_append_request (s : σ) (events : List Event) (p : Problem Float) :
    queries engine s (events ++ [.request p]) =
      queries engine s events ++ ((start s).run engine events).2.cache.asked engine p
        ((start s).run engine events).2.state := by
  have hsession : (start s).run engine events = _ := run_untraced engine (start (s, [])) events
  rw [queries_append_singleton, hsession]
  rfl

/-- A call asks for no compilation. -/
theorem queries_append_call (s : σ) (events : List Event) (number : Nat) (call : Call Float) :
    ∃ solves, queries engine s (events ++ [.call number call]) = queries engine s events ++ solves ∧
      ∀ query ∈ solves, ∃ source input, query = .solve source input := by
  refine ⟨_, queries_append_singleton engine s events _, fun query hquery => ?_⟩
  obtain ⟨h, -, heq⟩ := exists_of_mem_asked_call hquery
  exact ⟨h.artifact.1, h.input, heq⟩

end Session

end RecedingHorizon
