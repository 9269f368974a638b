import Mathlib
import RecedingHorizon.Proofs.Binary64.Floor
import RecedingHorizon.Proofs.Problem.Content
import RecedingHorizon.Reference

/-!
Selection of a segment. Every double selects a segment of a profile that has one: the segment at the
floor of the selector, or the nearest one if the floor is no index. Doubles count up to `2 ^ 53`
without a gap, so in a profile of at most that many segments each one has a selector of its own.
-/

namespace RecedingHorizon.Profile

variable {p : Profile Float}

theorem segmentIndex_eq (p : Profile Float) (selector : Float) :
    p.segmentIndex selector = Binary64.clampedFloor (p.segments.length - 1) selector :=
  Binary64.floorUpTo_eq_clampedFloor _ _

theorem segmentIndex_lt (hp : p.segments ≠ []) (selector : Float) :
    p.segmentIndex selector < p.segments.length := by
  have hpos : 0 < p.segments.length := List.length_pos_iff.2 hp
  have hle := Binary64.clampedFloor_le (p.segments.length - 1) selector
  rw [segmentIndex_eq]
  omega

/-- Selection is total, kept inside the profile and monotone. It reaches every segment of a profile
that has no more of them than doubles can count: the place of each one, the last included, is a
double and selects it. -/
theorem select_of_selector (hp : p.segments ≠ []) (hcount : p.segments.length ≤ 2 ^ 53) :
    (∀ s, ∃ h : p.segmentIndex s < p.segments.length,
      p.select? s = some p.segments[p.segmentIndex s]) ∧
    (∀ s, s.isNaN = true ∨ s < 1 → p.segmentIndex s = 0) ∧
    (∀ s r, Binary64.point? s = some r → ∀ k < p.segments.length, k ≤ r → r < k + 1 →
      p.segmentIndex s = k) ∧
    (∀ s r, Binary64.point? s = some r → ((p.segments.length - 1 : ℕ) : EReal) ≤ r →
      p.segmentIndex s = p.segments.length - 1) ∧
    (∀ s t : Float, s ≤ t → p.segmentIndex s ≤ p.segmentIndex t) ∧
    (p.segments.length = 1 → ∀ s t, p.select? s = p.select? t) ∧
    ∀ k < p.segments.length,
      ∃ s, Binary64.point? s = some (k : EReal) ∧ p.segmentIndex s = k := by
  have hpos : 0 < p.segments.length := List.length_pos_iff.2 hp
  have hselect (s : Float) : ∃ h : p.segmentIndex s < p.segments.length,
      p.select? s = some p.segments[p.segmentIndex s] :=
    ⟨segmentIndex_lt hp s, List.getElem?_eq_getElem _⟩
  refine ⟨hselect, ?_⟩
  simp only [select?, segmentIndex_eq]
  refine ⟨fun s hs => Binary64.clampedFloor_eq_zero _ hs, fun s r hr k hk hle hlt => ?_,
    fun s r hr hle => Binary64.clampedFloor_eq_last hr hle,
    fun s t hle => Binary64.clampedFloor_mono _ hle, fun hone s t => ?_, fun k hk => ?_⟩
  · exact Binary64.clampedFloor_eq hr (by omega) hle hlt
  · have hzero (s : Float) : Binary64.clampedFloor (p.segments.length - 1) s = 0 := by
      have hle := Binary64.clampedFloor_le (p.segments.length - 1) s
      omega
    rw [hzero s, hzero t]
  · obtain ⟨s, hs⟩ := Binary64.exists_point?_eq_natCast (hk.le.trans hcount)
    exact ⟨s, hs, Binary64.clampedFloor_of_point?_eq_natCast (by omega) hs⟩

/-- Of two set-points, NaN selects the lower one, and one and three quarters and every double above
it select the upper one. Each of them is selected by its place. -/
theorem select_of_selector_tank :
    Tank.setPoints.select? (0 / 0) = some [1, 0.25] ∧
      (∀ s : Float, 1.75 ≤ s → Tank.setPoints.select? s = some [2, 0.5]) ∧
      ∀ k < 2, ∃ s, Tank.setPoints.segmentIndex s = k := by
  obtain ⟨hselect, hfirst, -, hlast, hmono, -, hreach⟩ :=
    select_of_selector (p := Tank.setPoints) (by decide) (by decide)
  have hunpack : (1.75 : Float).toModel.unpack = .finite .positive (7 * 2 ^ 50) (-52) (by decide) :=
    rfl
  have hpoint : Binary64.point? 1.75 = some ((7 / 4 : ℝ) : EReal) := by
    rw [Binary64.point?, hunpack]
    norm_num [Binary64.value, Float.Model.UnpackedFloat.Sign.apply]
  have hupper : Tank.setPoints.segmentIndex 1.75 = 1 := by
    refine hlast 1.75 _ hpoint ?_
    have hone : ((1 : ℕ) : ℝ) ≤ 7 / 4 := by norm_num
    exact EReal.coe_le_coe hone
  refine ⟨?_, fun s hs => ?_, fun k hk => ?_⟩
  · obtain ⟨_, hselected⟩ := hselect (0 / 0)
    rw [hselected]
    simp only [hfirst (0 / 0) (.inl (by decide))]
    rfl
  · obtain ⟨hlt, hselected⟩ := hselect s
    have hle : 1 ≤ Tank.setPoints.segmentIndex s := hupper ▸ hmono 1.75 s hs
    have hindex : Tank.setPoints.segmentIndex s = 1 := le_antisymm (Nat.le_of_lt_succ hlt) hle
    rw [hselected]
    simp only [hindex]
    rfl
  · obtain ⟨s, -, hs⟩ := hreach k hk
    exact ⟨s, hs⟩

end RecedingHorizon.Profile
