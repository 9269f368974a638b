import Mathlib
import RecedingHorizon.Cache
import RecedingHorizon.Proofs.Handle.Artifact
import RecedingHorizon.Proofs.Handle.Store
import RecedingHorizon.Proofs.Problem.Build
import RecedingHorizon.Proofs.Problem.File
import RecedingHorizon.Proofs.Problem.Key

/-!
A cache is transparent. Every artifact in it was compiled from a finite problem with its key, and
the keys of finite problems fix all that is baked into a solver. So if what a compilation comes to
depends on that alone, a handle from the cache does what a handle from a compilation would do, and
the cache rejects what a compilation would reject.
-/

namespace RecedingHorizon

variable {α κ σ : Type}

/-! ### Problems and engines -/

/-- A problem that was built or read, and not edited since. -/
inductive Problem.Obtained [Spectral Float] (p : Problem Float) : Prop where
  | built {plant : Plant} {design : Design Float} {point : OperatingPoint Float}
      {setup : Setup Float} (h : build plant design point setup = .ok p)
  | read {place : Place} (h : read place = .ok p)

theorem Problem.Obtained.isFinite [Spectral Float] {p : Problem Float} (hp : p.Obtained) :
    p.IsFinite := by
  cases hp with
  | built h => exact isFinite_of_build h
  | read h =>
      obtain ⟨_, -, hdecode, -⟩ := read_eq_ok.1 h
      exact (good_of_decode? hdecode).1

/-- What a compilation comes to: a rejection, or the answers of a solver. -/
abbrev Outcome (α : Type) : Type := Except String (SolveInput α → Except String (EngineOutput α))

namespace Engine

def HasOutcome (engine : Engine α σ κ) (result : Except String κ) : Outcome α → Prop
  | .error text => result = .error text
  | .ok answer => ∃ artifact, result = .ok artifact ∧ engine.Answers artifact answer

/-- The outcome of a compilation is a function of what is baked into a solver. -/
def IsDeterminedBy (engine : Engine α σ κ) (outcome : Problem α → Outcome α) : Prop :=
  ∀ p s, engine.HasOutcome (engine.compile p s).1 (outcome p.baked)

variable {engine : Engine α σ κ} {outcome : Problem α → Outcome α} {p q : Problem α} {s : σ}

theorem IsDeterminedBy.eq_error (h : engine.IsDeterminedBy outcome) {text : String}
    (hcompile : (engine.compile p s).1 = .error text) (t : σ) :
    (engine.compile p t).1 = .error text := by
  have hs := h p s
  have ht := h p t
  cases houtcome : outcome p.baked with
  | error text' =>
      rw [houtcome] at hs ht
      cases hcompile.symm.trans hs
      exact ht
  | ok answer =>
      rw [houtcome] at hs
      obtain ⟨artifact, hok, -⟩ := hs
      cases hcompile.symm.trans hok

/-- Artifacts of problems that differ only in what is not baked in answer alike. -/
theorem IsDeterminedBy.exists_answers (h : engine.IsDeterminedBy outcome) {artifact : κ}
    (hcompile : (engine.compile q s).1 = .ok artifact) (hbaked : q.baked = p.baked) (t : σ) :
    ∃ artifact' answer, (engine.compile p t).1 = .ok artifact' ∧
      engine.Answers artifact answer ∧ engine.Answers artifact' answer := by
  have hq := h q s
  have hp := h p t
  rw [hbaked] at hq
  cases houtcome : outcome p.baked with
  | error text =>
      rw [houtcome] at hq
      cases hcompile.symm.trans hq
  | ok answer =>
      rw [houtcome] at hq hp
      obtain ⟨_, hok, hanswers⟩ := hq
      obtain ⟨artifact', hok', hanswers'⟩ := hp
      cases hcompile.symm.trans hok
      exact ⟨artifact', answer, hok', hanswers, hanswers'⟩

end Engine

/-! ### One request -/

namespace Cache

variable [Spectral Float]

/-- An invalid problem is refused, a known one is not compiled again, and what is compiled is
rejected or kept. -/
theorem handle_cases (engine : Engine Float σ κ) (c : Cache κ) (p : Problem Float) (s : σ) :
    (∃ e, p.checkCompilable = .error e ∧ (c.handle engine p s).1.result = .error e ∧
        (c.handle engine p s).2.1 = c) ∨
      p.validate = .ok () ∧
        ((∃ artifact, c.find? p.key = some artifact ∧
            (c.handle engine p s).1.result = .ok (Handle.start p artifact) ∧
            (c.handle engine p s).2.1 = c) ∨
          c.find? p.key = none ∧
            ((∃ text, (engine.compile p s).1 = .error text ∧
                (c.handle engine p s).1.result = .error (.compilation p.model (.engine text)) ∧
                (c.handle engine p s).2.1 = c) ∨
              ∃ artifact, (engine.compile p s).1 = .ok artifact ∧
                (c.handle engine p s).1.result = .ok (Handle.start p artifact) ∧
                (c.handle engine p s).2.1 = c.insert p.key artifact)) := by
  cases hvalid : p.checkCompilable with
  | error e =>
      left
      exact ⟨e, rfl, by simp [handle, hvalid]⟩
  | ok =>
      right
      refine ⟨Problem.checkCompilable_eq_ok.1 hvalid, ?_⟩
      cases hfind : c.find? p.key with
      | some artifact =>
          left
          exact ⟨artifact, rfl, by simp [handle, hvalid, hfind]⟩
      | none =>
          right
          refine ⟨rfl, ?_⟩
          have hgenerated : (p.generate engine s).1.result = _ := Problem.result_generate
          cases hcompile : (engine.compile p s).1 with
          | error text =>
              left
              rw [hcompile] at hgenerated
              refine ⟨text, rfl, ?_, ?_⟩ <;>
                simp only [handle, hvalid, hfind, hgenerated, Reported.result_bind] <;> rfl
          | ok artifact =>
              right
              rw [hcompile] at hgenerated
              refine ⟨artifact, rfl, ?_, ?_⟩ <;>
                simp only [handle, hvalid, hfind, hgenerated, Reported.result_bind] <;> rfl

/-! ### Runs of requests -/

/-- Every artifact was compiled from a finite problem with its key. -/
def Sound (engine : Engine Float σ κ) (c : Cache κ) : Prop :=
  ∀ key artifact, c.find? key = some artifact →
    ∃ q s, q.IsFinite ∧ q.key = key ∧ (engine.compile q s).1 = .ok artifact

/-- The caches after any requests for obtained problems. The engine may be in any state at each of
them, since handles may have been used in between. -/
inductive Reachable (engine : Engine Float σ κ) : Cache κ → Prop where
  | empty : Reachable engine Cache.empty
  | handle {c : Cache κ} {p : Problem Float} (hc : Reachable engine c) (hp : p.Obtained) (s : σ) :
      Reachable engine (c.handle engine p s).2.1

variable {engine : Engine Float σ κ} {c : Cache κ} {p : Problem Float}

/-- After a request, an entry is an old one or the artifact that was just compiled. -/
theorem find?_handle {s : σ} {key : Bytes} {found : κ}
    (hfound : (c.handle engine p s).2.1.find? key = some found) :
    c.find? key = some found ∨
      key = p.key ∧ p.validate = .ok () ∧ (engine.compile p s).1 = .ok found := by
  rcases handle_cases engine c p s with ⟨_, -, -, hcache⟩ | ⟨hvalid, ⟨_, -, -, hcache⟩ |
    ⟨-, ⟨_, -, -, hcache⟩ | ⟨artifact, hcompile, -, hcache⟩⟩⟩
  · exact .inl (hcache ▸ hfound)
  · exact .inl (hcache ▸ hfound)
  · exact .inl (hcache ▸ hfound)
  · rw [hcache] at hfound
    by_cases hkey : key = p.key
    · rw [hkey, find?_insert] at hfound
      cases hfound
      exact .inr ⟨hkey, hvalid, hcompile⟩
    · rw [find?_insert_of_ne c artifact hkey] at hfound
      exact .inl hfound

theorem Sound.handle (hc : c.Sound engine) (hp : p.IsFinite) (s : σ) :
    (c.handle engine p s).2.1.Sound engine := by
  intro key found hfound
  rcases find?_handle hfound with hold | ⟨hkey, -, hcompile⟩
  · exact hc key found hold
  · exact ⟨p, s, hp, hkey.symm, hcompile⟩

theorem Reachable.sound (hc : c.Reachable engine) : c.Sound engine := by
  induction hc with
  | empty => exact fun _ _ hfound => nomatch hfound
  | handle _ hp s ih => exact ih.handle hp.isFinite s

/-! ### Transparency -/

/-- Whether found or compiled, the artifact of a handle was compiled from a problem with the same
baked parts. -/
theorem Sound.handle_eq_ok (hc : c.Sound engine) {s : σ} {h : Handle Float κ}
    (hhandle : (c.handle engine p s).1.result = .ok h) :
    p.validate = .ok () ∧ ∃ artifact q s', h = Handle.start p artifact ∧ q.baked = p.baked ∧
      (engine.compile q s').1 = .ok artifact := by
  rcases handle_cases engine c p s with ⟨_, -, hresult, -⟩ | ⟨hvalid, ⟨artifact, hfind, hresult, -⟩ |
    ⟨-, ⟨_, -, hresult, -⟩ | ⟨artifact, hcompile, hresult, -⟩⟩⟩
  · cases hhandle.symm.trans hresult
  · cases hhandle.symm.trans hresult
    obtain ⟨q, s', hq, hkey, hcompile⟩ := hc _ _ hfind
    exact ⟨hvalid, artifact, q, s', rfl, Problem.baked_eq_of_key_eq hq hkey, hcompile⟩
  · cases hhandle.symm.trans hresult
  · cases hhandle.symm.trans hresult
    exact ⟨hvalid, artifact, p, s, rfl, rfl, hcompile⟩

variable {outcome : Problem Float → Outcome Float}

/-- What the cache refuses or rejects, a compilation does as well. -/
theorem compile_of_handle_eq_error (hengine : engine.IsDeterminedBy outcome) {s : σ}
    {e : ProblemError Float} (hhandle : (c.handle engine p s).1.result = .error e) (t : σ) :
    (p.compile engine t).1.result = .error e := by
  rw [Problem.result_compile]
  rcases handle_cases engine c p s with ⟨_, hinvalid, hresult, -⟩ | ⟨hvalid, ⟨_, -, hresult, -⟩ |
    ⟨-, ⟨text, hcompile, hresult, -⟩ | ⟨_, -, hresult, -⟩⟩⟩
  · cases hhandle.symm.trans hresult
    rw [hinvalid]
    rfl
  · cases hhandle.symm.trans hresult
  · cases hhandle.symm.trans hresult
    rw [Problem.checkCompilable_eq_ok.2 hvalid, hengine.eq_error hcompile t]
    rfl
  · cases hhandle.symm.trans hresult

/-- A handle from the cache is a compiled one, moved to an artifact that answers alike. -/
theorem Sound.exists_compile (hengine : engine.IsDeterminedBy outcome) (hc : c.Sound engine) {s : σ}
    {h : Handle Float κ} (hhandle : (c.handle engine p s).1.result = .ok h) (t : σ) :
    ∃ fresh artifact answer, (p.compile engine t).1.result = .ok fresh ∧ h = fresh.moveTo artifact ∧
      engine.Answers fresh.artifact answer ∧ engine.Answers artifact answer := by
  obtain ⟨hvalid, artifact, q, s', rfl, hbaked, hcompile⟩ := hc.handle_eq_ok hhandle
  obtain ⟨artifact', answer, hcompile', hanswers, hanswers'⟩ :=
    hengine.exists_answers hcompile hbaked t
  exact ⟨Handle.start p artifact', artifact, answer,
    Problem.compile_eq_ok.2 ⟨hvalid, artifact', hcompile', rfl⟩, rfl, hanswers', hanswers⟩

/-- If what is baked into a solver determines what a compilation comes to, then after any requests
the cache fails where a compilation of the problem would, with the same error, and otherwise gives
a handle at the nominal values of this very problem that replies to all calls like a compiled one. -/
theorem handle_transparent (hengine : engine.IsDeterminedBy outcome) (hc : c.Reachable engine)
    (s t : σ) :
    (∀ e, (c.handle engine p s).1.result = .error e ↔ (p.compile engine t).1.result = .error e) ∧
    ∀ h, (c.handle engine p s).1.result = .ok h →
      ∃ fresh, (p.compile engine t).1.result = .ok fresh ∧
        h.problem = p ∧ fresh.problem = p ∧ h.initialState = fresh.initialState ∧
        h.parameters = fresh.parameters ∧ h.targets = fresh.targets ∧ h.cycles = fresh.cycles ∧
        h.monitor = fresh.monitor ∧
        ∀ calls s₁ s₂, (h.run engine s₁ calls).1 = (fresh.run engine s₂ calls).1 := by
  refine ⟨fun e => ⟨fun herror => compile_of_handle_eq_error hengine herror t, fun herror => ?_⟩, ?_⟩
  · cases hhandle : (c.handle engine p s).1.result with
    | error e' =>
        cases herror.symm.trans (compile_of_handle_eq_error hengine hhandle t)
        rfl
    | ok h =>
        obtain ⟨fresh, -, -, hfresh, -⟩ := hc.sound.exists_compile hengine hhandle t
        cases herror.symm.trans hfresh
  · intro h hhandle
    obtain ⟨fresh, artifact, answer, hfresh, rfl, hanswers, hanswers'⟩ :=
      hc.sound.exists_compile hengine hhandle t
    obtain ⟨-, _, -, rfl⟩ := Problem.compile_eq_ok.1 hfresh
    refine ⟨_, hfresh, rfl, rfl, rfl, rfl, rfl, rfl, rfl, fun calls s₁ s₂ => ?_⟩
    exact Handle.run_moveTo hanswers hanswers' s₂ s₁ calls

end Cache

namespace Tank

/-- The same tank at another level. -/
def full : Problem Float :=
  { problem with constraints := { problem.constraints with initialState := some [2] } }

theorem obtained_problem : problem.Obtained := by
  have hwords : problem.FitsWords := by decide +kernel
  have hfinite : problem.IsFinite := by decide +kernel
  exact .read ((Problem.read_file_encode hwords).2 ⟨rfl, validate_problem, hfinite⟩)

theorem isDeterminedBy_engine :
    engine.IsDeterminedBy fun _ => .ok fun _ => .ok ⟨[0.5], .converged, 1⟩ :=
  fun _ _ => ⟨(), rfl, fun _ _ => rfl⟩

end Tank

namespace Cache

theorem handle_transparent_tank :
    ∃ h fresh, ((Cache.empty.handle Tank.engine Tank.problem 0).2.1.handle Tank.engine Tank.full
        0).1.result = .ok h ∧
      (Tank.full.compile Tank.engine 0).1.result = .ok fresh ∧
      h.initialState = fresh.initialState ∧
      ∀ calls s₁ s₂, (h.run Tank.engine s₁ calls).1 = (fresh.run Tank.engine s₂ calls).1 := by
  have hvalid : Tank.full.validate = .ok () := by decide +kernel
  have hcompile : (Tank.full.compile Tank.engine 0).1.result = .ok (Handle.start Tank.full ()) :=
    Problem.compile_eq_ok.2 ⟨hvalid, (), rfl, rfl⟩
  have hreachable : (Cache.empty.handle Tank.engine Tank.problem 0).2.1.Reachable Tank.engine :=
    Reachable.empty.handle Tank.obtained_problem 0
  obtain ⟨herror, hok⟩ := handle_transparent Tank.isDeterminedBy_engine hreachable 0 0
  cases hhandle : ((Cache.empty.handle Tank.engine Tank.problem 0).2.1.handle Tank.engine Tank.full
      0).1.result with
  | error e => cases hcompile.symm.trans ((herror e).1 hhandle)
  | ok h =>
      obtain ⟨fresh, hfresh, -, -, hstate, -, -, -, -, hruns⟩ := hok h hhandle
      exact ⟨h, fresh, rfl, hfresh, hstate, hruns⟩

end Cache

end RecedingHorizon
