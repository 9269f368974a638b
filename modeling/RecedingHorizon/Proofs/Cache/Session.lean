import Mathlib
import RecedingHorizon.Proofs.Cache.Sharing
import RecedingHorizon.Proofs.Handle.Finite

/-!
Sessions: a cache, the engine that it asks, and all the handles that it has issued. Events come in
any order, and each of them is a request for a handle or a call on a handle that was issued before.
Whatever the events are, every handle of a session stays sound: its problem is valid, it holds values
of the dimensions of its problem, and its artifact was compiled from a valid problem with its key.
-/

namespace RecedingHorizon

variable {α κ σ : Type}

/-- The values that a handle holds, and the number of its completed solves. -/
structure Reading (α : Type) where
  input : SolveInput α
  cycles : Nat

def Handle.reading (h : Handle α κ) : Reading α := ⟨h.input, h.cycles⟩

/-- Handles are numbered in the order in which they were issued. -/
inductive Event where
  | request (p : Problem Float)
  | call (number : Nat) (call : Call Float)

inductive Answer where
  | issued (report : Reported Float (ProblemError Float) Nat)
  /-- The reply to a call, and what the handle holds after it. -/
  | replied (reply : Reply Float) (reading : Reading Float)
  /-- No handle with this number was issued. -/
  | unknown

structure Session (κ σ : Type) where
  cache : Cache κ
  handles : List (Handle Float κ)
  /-- The state of the engine. -/
  state : σ

namespace Session

/-- A session with an empty cache. -/
def start (s : σ) : Session κ σ := ⟨Cache.empty, [], s⟩

variable [Spectral Float] (engine : Engine Float σ κ)

def step (session : Session κ σ) : Event → Answer × Session κ σ
  | .request p =>
    let (report, cache, state) := session.cache.handle engine p session.state
    (.issued ⟨report.notices, report.result.map fun _ => session.handles.length⟩,
      ⟨cache, session.handles ++ report.result.toOption.toList, state⟩)
  | .call number call =>
    match session.handles[number]? with
    | some h =>
      let (reply, h, state) := h.perform engine session.state call
      (.replied reply h.reading, ⟨session.cache, session.handles.set number h, state⟩)
    | none => (.unknown, session)

/-- Events one after the other, with the answer to each. -/
def run (session : Session κ σ) : List Event → List (Event × Answer) × Session κ σ
  | [] => ([], session)
  | event :: events =>
    let (answer, next) := session.step engine event
    let (trace, last) := next.run events
    ((event, answer) :: trace, last)

variable {engine} {session : Session κ σ}

theorem run_append (earlier later : List Event) :
    session.run engine (earlier ++ later) =
      ((session.run engine earlier).1 ++ ((session.run engine earlier).2.run engine later).1,
        ((session.run engine earlier).2.run engine later).2) := by
  induction earlier generalizing session with
  | nil => rfl
  | cons event earlier ih => simp only [List.cons_append, run, ih]

theorem run_append_singleton (events : List Event) (event : Event) :
    session.run engine (events ++ [event]) =
      ((session.run engine events).1 ++
          [(event, ((session.run engine events).2.step engine event).1)],
        ((session.run engine events).2.step engine event).2) :=
  run_append events [event]

/-- What holds at the start of a run and is kept by every event holds at the end of it. -/
theorem run_induction {P : List (Event × Answer) → Session κ σ → Prop} (hstart : P [] session)
    (hstep : ∀ trace now event, P trace now →
      P (trace ++ [(event, (now.step engine event).1)]) (now.step engine event).2)
    (events : List Event) : P (session.run engine events).1 (session.run engine events).2 := by
  induction events using List.reverseRecOn with
  | nil => exact hstart
  | append_singleton events event ih =>
      rw [run_append_singleton]
      exact hstep _ _ event ih

theorem step_request_hit {p : Problem Float} {artifact : κ} (hvalid : p.validate = .ok ())
    (hfind : session.cache.find? p.key = some artifact) :
    session.step engine (.request p) = (.issued ⟨[], .ok session.handles.length⟩,
      ⟨session.cache, session.handles ++ [Handle.start p artifact], session.state⟩) := by
  simp only [step, Cache.handle, Problem.checkCompilable_eq_ok.2 hvalid, hfind]
  rfl

theorem step_request_miss {p : Problem Float} {artifact : κ} {s : σ} (hvalid : p.validate = .ok ())
    (hfind : session.cache.find? p.key = none)
    (hcompile : engine.compile p session.state = (.ok artifact, s)) :
    session.step engine (.request p) = (.issued ⟨[.compiled p.model], .ok session.handles.length⟩,
      ⟨session.cache.insert p.key artifact, session.handles ++ [Handle.start p artifact], s⟩) := by
  simp only [step, Cache.handle, Problem.checkCompilable_eq_ok.2 hvalid, hfind, Problem.generate,
    hcompile]
  rfl

theorem step_call {number : Nat} {h : Handle Float κ} (hnumber : session.handles[number]? = some h)
    (call : Call Float) :
    session.step engine (.call number call) =
      (.replied (h.perform engine session.state call).1
          (h.perform engine session.state call).2.1.reading,
        ⟨session.cache, session.handles.set number (h.perform engine session.state call).2.1,
          (h.perform engine session.state call).2.2⟩) := by
  simp only [step, hnumber]

/-- Two requests with one key share what was compiled at the first of them. -/
theorem run_requests_of_key_eq {p q : Problem Float} {artifact : κ} {s s' : σ}
    (hp : p.validate = .ok ()) (hq : q.validate = .ok ()) (hkey : q.key = p.key)
    (hcompile : engine.compile p s = (.ok artifact, s')) :
    (start s).run engine [.request p, .request q] =
      ([(.request p, .issued ⟨[.compiled p.model], .ok 0⟩), (.request q, .issued ⟨[], .ok 1⟩)],
        ⟨Cache.empty.insert p.key artifact, [Handle.start p artifact, Handle.start q artifact],
          s'⟩) := by
  have hfind : ((Cache.empty : Cache κ).insert p.key artifact).find? q.key = some artifact := by
    rw [hkey, Cache.find?_insert]
  have hfirst : (start s).step engine (.request p) = (.issued ⟨[.compiled p.model], .ok 0⟩,
      ⟨Cache.empty.insert p.key artifact, [Handle.start p artifact], s'⟩) :=
    step_request_miss hp rfl hcompile
  have hsecond : (Session.step engine
      ⟨Cache.empty.insert p.key artifact, [Handle.start p artifact], s'⟩ (.request q)) =
      (.issued ⟨[], .ok 1⟩, ⟨Cache.empty.insert p.key artifact,
        [Handle.start p artifact, Handle.start q artifact], s'⟩) :=
    step_request_hit hq hfind
  simp only [run, hfirst, hsecond]

/-- A handle after an event is an old one, an old one after a call, or the one just issued. -/
theorem mem_handles_step {event : Event} {h : Handle Float κ}
    (hmem : h ∈ (session.step engine event).2.handles) :
    h ∈ session.handles ∨
      (∃ old ∈ session.handles, ∃ call, h = (old.perform engine session.state call).2.1) ∨
      ∃ p, (session.cache.handle engine p session.state).1.result = .ok h := by
  cases event with
  | request p =>
      simp only [step, List.mem_append, Option.mem_toList] at hmem
      rcases hmem with hold | hnew
      · exact .inl hold
      · right; right
        refine ⟨p, ?_⟩
        cases hresult : (session.cache.handle engine p session.state).1.result with
        | error e => simp [hresult, Except.toOption] at hnew
        | ok issued =>
            simp only [hresult, Except.toOption] at hnew
            rw [Option.some.inj hnew]
  | call number call =>
      simp only [step] at hmem
      split at hmem
      next old hold =>
        rcases List.mem_or_eq_of_mem_set hmem with hkept | hcalled
        · exact .inl hkept
        · exact .inr (.inl ⟨old, List.mem_of_getElem? hold, call, hcalled⟩)
      next => exact .inl hmem

theorem cache_step_call (number : Nat) (call : Call Float) :
    (session.step engine (.call number call)).2.cache = session.cache := by
  simp only [step]
  split <;> rfl

end Session

/-! ### Shapes -/

/-- The values have the given dimensions. -/
structure SolveInput.Fits (d : Dimensions) (input : SolveInput α) : Prop where
  initialState : input.initialState.length = d.states
  parameters : input.parameters.length = d.parameters
  targets : input.targets.map List.length =
    List.replicate d.intervals d.stageResiduals ++ [d.terminalResiduals]

namespace Handle

theorem fits_start [Scalar α] [Spectral α] {p : Problem α} (hp : p.WellFormed) (artifact : κ) :
    (start p artifact).input.Fits p.dimensions where
  initialState := by
    obtain ⟨x0, hx0, hlength⟩ := hp.constraints.initialState
    simpa only [input, start, hx0, Option.getD_some] using hlength
  parameters := hp.reference.parameters
  targets := by
    simp only [input, start, List.map_append, List.map_replicate, hp.cost.stageTarget,
      hp.cost.terminalTarget, List.map_cons, List.map_nil]

/-- An accepted setting replaces values by values of the same dimensions. -/
theorem fits_assign [Scalar α] {h : Handle α κ} {setting : Setting α}
    (hfits : h.input.Fits h.problem.dimensions) (hsetting : setting.Fits h.problem) :
    (h.assign setting).input.Fits h.problem.dimensions := by
  cases setting with
  | initialState x0 => exact ⟨hsetting.1, hfits.parameters, hfits.targets⟩
  | parameters values => exact ⟨hfits.initialState, hsetting.1, hfits.targets⟩
  | parameter index value =>
      exact ⟨hfits.initialState, List.length_set.trans hfits.parameters, hfits.targets⟩
  | selector value =>
      simp only [assign]
      split
      · exact ⟨hfits.initialState, List.length_set.trans hfits.parameters, hfits.targets⟩
      · exact hfits
  | target stage values =>
      refine ⟨hfits.initialState, hfits.parameters, ?_⟩
      have hlengths : h.targets.map List.length = _ := hfits.targets
      simp only [input, assign, List.map_set, hlengths]
      rcases hsetting.1 with ⟨hstage, hlength⟩ | ⟨rfl, hlength⟩
      · rw [hlength, List.set_append_left _ _ (by simpa using hstage), List.set_replicate_self]
      · rw [hlength, List.set_append_right _ _ (by simp)]
        simp

/-! ### Sound handles -/

variable [Spectral Float]

/-- A handle that a session can have come to. -/
structure Sound (engine : Engine Float σ κ) (h : Handle Float κ) : Prop where
  valid : h.problem.WellFormed
  fits : h.input.Fits h.problem.dimensions
  source : ∃ q s, q.WellFormed ∧ q.key = h.problem.key ∧ (engine.compile q s).1 = .ok h.artifact

variable {engine : Engine Float σ κ} {h : Handle Float κ}

theorem sound_of_handle {c : Cache κ} (hc : c.Reached engine) {p : Problem Float} {s : σ}
    (hhandle : (c.handle engine p s).1.result = .ok h) : h.Sound engine := by
  obtain ⟨q, s', hq, hkey, hcompile⟩ := hc.handle_eq_ok hhandle
  obtain ⟨hvalid, artifact, rfl⟩ := Issued.eq_start (.cached hhandle)
  have hp := Problem.validate_eq_ok.1 hvalid
  exact ⟨hp, fits_start hp artifact, q, s', Problem.validate_eq_ok.1 hq, hkey, hcompile⟩

theorem Sound.step {h' : Handle Float κ} {call : Call Float} {reply : Reply Float}
    (hsound : h.Sound engine) (hstep : h.Step call reply h') : h'.Sound engine := by
  cases hstep with
  | assigned hcheck =>
      have hsetting := (check_eq_ok hsound.valid.reference hsound.fits.parameters).1 hcheck
      refine ⟨?_, ?_, ?_⟩
      · simpa only [problem_assign] using hsound.valid
      · simpa only [problem_assign] using fits_assign hsound.fits hsetting
      · simpa only [problem_assign, artifact_assign] using hsound.source
  | _ => exact ⟨hsound.valid, hsound.fits, hsound.source⟩

end Handle

namespace Session

variable [Spectral Float]

/-- The cache has come from requests, and all handles are sound. -/
structure Sound (engine : Engine Float σ κ) (session : Session κ σ) : Prop where
  cache : session.cache.Reached engine
  handles : ∀ h ∈ session.handles, h.Sound engine

variable {engine : Engine Float σ κ} {session : Session κ σ}

theorem Sound.step (hsound : session.Sound engine) (event : Event) :
    (session.step engine event).2.Sound engine := by
  refine ⟨?_, fun h hmem => ?_⟩
  · cases event with
    | request p => exact hsound.cache.handle p session.state
    | call number call =>
        rw [cache_step_call]
        exact hsound.cache
  · rcases mem_handles_step hmem with hold | ⟨old, hold, call, rfl⟩ | ⟨p, hissued⟩
    · exact hsound.handles h hold
    · exact (hsound.handles old hold).step (old.step_perform engine session.state call)
    · exact Handle.sound_of_handle hsound.cache hissued

theorem sound_start (engine : Engine Float σ κ) (s : σ) : (start s).Sound engine :=
  ⟨.empty, fun _ hmem => nomatch hmem⟩

theorem Sound.run (hsound : session.Sound engine) (events : List Event) :
    (session.run engine events).2.Sound engine :=
  run_induction (P := fun _ now => now.Sound engine) hsound (fun _ _ event hnow => hnow.step event)
    events

end Session

namespace Tank

theorem validate_full : full.validate = .ok () := by decide +kernel

theorem baked_full : full.baked = problem.baked := by
  simp only [Problem.baked, full]

theorem key_full : full.key = problem.key := by
  rw [Problem.key_inj, ← full.keyForm_baked, ← problem.keyForm_baked, baked_full]

end Tank

end RecedingHorizon
