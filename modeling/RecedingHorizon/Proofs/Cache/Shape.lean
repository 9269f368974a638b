import Mathlib
import RecedingHorizon.Proofs.Cache.Queries
import RecedingHorizon.Proofs.Problem.Evaluate

/-!
What reaches a compiled solver has the shape that it was compiled for. A handle may have been made
for another problem than its artifact, but their keys are the same, and a key tells the dimensions.
So it is enough that every handle holds values of the dimensions of its own problem, and then its
problem can also be evaluated at these values.
-/

namespace RecedingHorizon

variable {κ σ : Type}

/-- A key tells the dimensions. -/
theorem Problem.dimensions_eq_of_key_eq {p q : Problem Float} (h : p.key = q.key) :
    p.dimensions = q.dimensions := by
  have hform := key_inj.1 h
  simp only [keyForm, Json.record_inj, List.cons.injEq, Prod.mk.injEq, true_and, and_true] at hform
  obtain ⟨-, hdims, -⟩ := hform
  exact Dimensions.form_inj hdims

namespace Handle

variable [Spectral Float] {engine : Engine Float σ κ}

/-- The values fit the problem that the artifact was compiled from. -/
theorem Sound.fits_source {h : Handle Float (Problem Float × κ)} (hsound : h.Sound engine.traced) :
    h.input.Fits h.artifact.1.dimensions := by
  obtain ⟨q, s, -, hkey, hcompile⟩ := hsound.source
  have hmark : h.artifact.1 = q := by
    simp only [Engine.traced] at hcompile
    cases hresult : (engine.compile q s.1).1 with
    | error text => cases hresult ▸ hcompile
    | ok artifact =>
        rw [hresult] at hcompile
        exact (congrArg Prod.fst (Except.ok.inj hcompile)).symm
  rw [hmark, Problem.dimensions_eq_of_key_eq hkey]
  exact hsound.fits

end Handle

namespace Session

section Runs

variable [Spectral Float] (engine : Engine Float σ κ)

/-- The handles are sound, and all solves so far have fit their sources. -/
structure Fed (session : Session (Problem Float × κ) (σ × List (Query Float))) : Prop where
  sound : session.Sound engine.traced
  fits : ∀ source input, .solve source input ∈ session.state.2 → input.Fits source.dimensions

variable {engine}

theorem Fed.step {session : Session (Problem Float × κ) (σ × List (Query Float))}
    (hfed : session.Fed engine) (event : Event) :
    (session.step engine.traced event).2.Fed engine := by
  refine ⟨hfed.sound.step event, fun source input hmem => ?_⟩
  rw [(session.step_untraced engine event).2, List.mem_append] at hmem
  rcases hmem with hold | hasked
  · exact hfed.fits source input hold
  · cases event with
    | request p =>
        simp only [asked, Cache.asked] at hasked
        split at hasked
        · cases List.mem_singleton.1 hasked
        · cases hasked
    | call number call =>
        obtain ⟨h, hmem, heq⟩ := exists_of_mem_asked_call hasked
        cases heq
        exact (hfed.sound.handles h hmem).fits_source

end Runs

end Session

end RecedingHorizon
