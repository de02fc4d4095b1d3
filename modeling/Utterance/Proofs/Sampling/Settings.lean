import Utterance.Proofs.Binary.Order
import Utterance.Sampling.Overrides

/-!
# Settings in range

`valid_iff` says which settings the check accepts, and `Settings.of_override` what overrides that
are accepted make of them.
-/

namespace Utterance.Sampling

open Binary

/-- The guard of `Settings.check` on the temperature, as a range. -/
private theorem refuses_temperature (x : Float32) :
    (!x.isFinite || decide (x ≤ 0)) = true ↔ ¬(x.isFinite = true ∧ 0 < x) := by
  cases hfinite : x.isFinite
  · simp
  · simp [← not_le_iff (isNaN_of_isFinite hfinite) isNaN_zero]

/-- The guard of `Settings.check` on the nucleus mass, as a range. -/
private theorem refuses_topP (x : Float32) :
    (!x.isFinite || decide (x ≤ 0) || decide (1 < x)) = true ↔
      ¬(x.isFinite = true ∧ 0 < x ∧ x ≤ 1) := by
  have hone : (1 : Float32).isNaN = false := by decide
  cases hfinite : x.isFinite
  · simp
  · have hnan := isNaN_of_isFinite hfinite
    simp only [← not_le_iff hnan isNaN_zero, ← not_lt_iff hone hnan, Bool.not_true, Bool.false_or,
      Bool.or_eq_true, decide_eq_true_eq, true_and, not_and_or, not_not]

/-- The guard of `Settings.check` on the penalty, as a range. -/
private theorem refuses_penalty (x : Float32) :
    (!x.isFinite || decide (x < 1)) = true ↔ ¬(x.isFinite = true ∧ 1 ≤ x) := by
  have hone : (1 : Float32).isNaN = false := by decide
  cases hfinite : x.isFinite
  · simp
  · simp [← not_lt_iff (isNaN_of_isFinite hfinite) hone]

/-- `Settings.check` passes exactly the settings with every knob in range. -/
theorem Settings.valid_iff (s : Settings) :
    s.Valid ↔
      (s.temperature.isFinite = true ∧ 0 < s.temperature) ∧
      (s.topP.isFinite = true ∧ 0 < s.topP ∧ s.topP ≤ 1) ∧
      (s.repetitionPenalty.isFinite = true ∧ 1 ≤ s.repetitionPenalty) ∧
      0 < s.maxSteps ∧ s.maxSteps ≤ stepLimit := by
  simp only [Settings.Valid, Settings.check, refuses_temperature, refuses_topP, refuses_penalty]
  -- one guard after the other, in the order in which the check has them
  split
  · next h => exact iff_of_false nofun fun hall => h hall.1
  · next htemperature =>
    split
    · next h => exact iff_of_false nofun fun hall => h hall.2.1
    · next htopP =>
      split
      · next h => exact iff_of_false nofun fun hall => h hall.2.2.1
      · next hpenalty =>
        split
        · next h => exact iff_of_false nofun fun hall => by omega
        · next hsteps =>
          exact iff_of_true rfl
            ⟨not_not.mp htemperature, not_not.mp htopP, not_not.mp hpenalty, by omega⟩

/-- Overrides that `override` accepts are in place, and leave settings in range. -/
theorem Settings.of_override {s merged : Settings} {o : Overrides} (h : s.override o = .ok merged) :
    merged = s.merge o ∧ merged.Valid := by
  unfold Settings.override at h
  -- a negative count is refused, and the check decides on everything else
  split at h
  · cases h
  · cases hcheck : (s.merge o).check with
    | error fault =>
      simp only [hcheck] at h
      cases h
    | ok =>
      simp only [hcheck] at h
      cases h
      exact ⟨rfl, hcheck⟩

end Utterance.Sampling
