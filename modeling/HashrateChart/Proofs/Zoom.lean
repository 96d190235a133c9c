/-
Windows between the limits of the zoom.

Integers of at most 53 bits are brought to themselves, so limits that are in order
stay as they are, and every window is brought between them.
-/
import HashrateChart.Proofs.Binary64
import HashrateChart.Zoom

namespace HashrateChart

/-- Limits between which there is a window. -/
def ZoomConfig.InOrder (cfg : ZoomConfig) : Prop := 1 ≤ cfg.maxWindow ∧ cfg.minWindow ≤ cfg.maxWindow

instance (cfg : ZoomConfig) : Decidable cfg.InOrder :=
  inferInstanceAs (Decidable (1 ≤ cfg.maxWindow ∧ cfg.minWindow ≤ cfg.maxWindow))

/-- Limits that are binary64 numbers. -/
def ZoomConfig.IsExact (cfg : ZoomConfig) : Prop :=
  Binary64.IsExact cfg.minWindow ∧ Binary64.IsExact cfg.maxWindow

instance (cfg : ZoomConfig) : Decidable cfg.IsExact :=
  inferInstanceAs (Decidable (Binary64.IsExact cfg.minWindow ∧ Binary64.IsExact cfg.maxWindow))

namespace Zoom

open Binary64 (IsExact)

variable {cfg c : ZoomConfig} {w : Int}

theorem whole_int {i : Int} (h : IsExact i) : whole (.int i) = .ok i := by
  have hreal : (Json.int i).toReal = .ok (Arithmetic.whole i) := Binary64.ofInt?_whole h
  unfold whole
  rw [hreal]
  by_cases hz : i = 0
  · subst hz
    rfl
  · have htruthy : (Json.int i).truthy = true := by
      show (!decide (i = 0)) = true
      simp [hz]
    rw [htruthy]
    simp only [Bool.not_true, Bool.false_eq_true, if_false, Binary64.isFinite_whole h, if_true]
    exact Binary64.nearest_whole h

/-- Limits in order are kept. -/
theorem normalize_of_inOrder (hin : cfg.InOrder) (hexact : cfg.IsExact) (h : normalize cfg = .ok c) :
    c.minWindow = max 1 cfg.minWindow ∧ c.maxWindow = cfg.maxWindow := by
  unfold normalize at h
  rw [whole_int hexact.1, whole_int hexact.2] at h
  simp only [bind, Except.bind] at h
  split at h
  · cases h
  · cases h
    have := hin.1
    have := hin.2
    refine ⟨rfl, ?_⟩
    dsimp only
    rw [if_neg (by omega)]
    omega

/-- Every window is brought between limits in order. -/
theorem clamp_of_inOrder (hin : cfg.InOrder) (hexact : cfg.IsExact) {window : Json}
    (h : clamp window cfg = .ok w) : 1 ≤ w ∧ w ≤ cfg.maxWindow := by
  unfold clamp at h
  simp only [bind, Except.bind] at h
  split at h
  · cases h
  · next c hc =>
    obtain ⟨hmin, hmax⟩ := normalize_of_inOrder hin hexact hc
    split at h
    · cases h
    · cases h
      have := hin.1
      have := hin.2
      omega

theorem isExact_of_clamp (hin : cfg.InOrder) (hexact : cfg.IsExact) {window : Json}
    (h : clamp window cfg = .ok w) : IsExact w := by
  obtain ⟨hlow, hhigh⟩ := clamp_of_inOrder hin hexact h
  have hmax := hexact.2
  unfold IsExact at hmax ⊢
  omega

end Zoom

end HashrateChart
