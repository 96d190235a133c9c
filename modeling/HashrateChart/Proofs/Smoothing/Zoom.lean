/-
A chart that is zoomed out further is smoothed no less.

All that a window decides is the number of steps (`smooth_eq`), and the tension and the
length of the average grow with it: the boost is not negative, the length per step neither,
and every limit keeps the order. So the order of two windows goes through to both, as long
as the longer window is not infinite: an infinite one counts as none at all.
-/
import HashrateChart.Proofs.Smoothing.Average

namespace HashrateChart

open Arithmetic
open Exact (number)

namespace Smoothing

/-! ## The window between its limits -/

/-- The curve for a window is the one for that window between its limits, in any arithmetic. -/
theorem smooth_clamp {α : Type} [Arithmetic α] {cfg : SmoothingConfig α} {zoom : ZoomConfig}
    (henabled : cfg.enabled = true) (hzoom : zoom.AllExact) (data labels : List α) (window : Json) :
    (Zoom.clamp window zoom >>= fun w => smooth (data.map .ok) (labels.map .ok) cfg (.int w) zoom) =
      smooth (data.map .ok) (labels.map .ok) cfg window zoom := by
  rw [smooth_eq henabled]
  cases hc : Zoom.clamp window zoom with
  | error e =>
    rw [Zoom.stepCount_error hzoom hc]
    rfl
  | ok w =>
    rw [bind_of_ok rfl, smooth_eq henabled, Zoom.stepCount_clamp hzoom hc]

/-! ## More steps -/

variable {cfg : SmoothingConfig Exact} {b q : ℚ} {k l : Int}

/-- Settings of the tension that are all numbers. -/
def TensionsFinite (cfg : SmoothingConfig Exact) : Prop :=
  ∀ x ∈ [cfg.tensionFast, cfg.tensionMedium, cfg.tensionSlow, cfg.zoomBoost], isFinite x = true

instance (cfg : SmoothingConfig Exact) : Decidable (TensionsFinite cfg) := List.decidableBAll _ _

theorem baseTension_number (h : TensionsFinite cfg) (interval : Exact) :
    ∃ t, baseTension cfg interval = number t := by
  unfold baseTension
  split
  · exact Exact.exists_number (h _ (by simp))
  · split
    · exact Exact.exists_number (h _ (by simp))
    · exact Exact.exists_number (h _ (by simp))

theorem boostOf_nonneg (b : ℚ) : 0 ≤ boostOf b := le_max_left _ _

/-- More steps give no less tension. -/
theorem tensionOf_mono (h : TensionsFinite cfg) (b : ℚ) (interval : Exact) (hkl : k ≤ l) :
    le (tensionOf cfg b interval k) (tensionOf cfg b interval l) = true := by
  obtain ⟨t, ht⟩ := baseTension_number h interval
  obtain ⟨f, hf⟩ := Exact.exists_number (h cfg.tensionFast (by simp))
  unfold tensionOf
  rw [ht, hf]
  split
  · have hsteps : (k : ℚ) * boostOf b ≤ l * boostOf b :=
      mul_le_mul_of_nonneg_right (by exact_mod_cast hkl) (boostOf_nonneg b)
    rw [Exact.number_add, Exact.number_add, Exact.smaller_number, Exact.smaller_number, Exact.le_number]
    exact decide_eq_true (min_le_min_left f (by linarith))
  · rw [Exact.le_number]
    exact decide_eq_true le_rfl

theorem targetWindow_mono (h : 0 ≤ cfg.windowPerStep) (hkl : k ≤ l) :
    targetWindow cfg k ≤ targetWindow cfg l := by
  have hsteps : k * cfg.windowPerStep ≤ l * cfg.windowPerStep := Int.mul_le_mul_of_nonneg_right hkl h
  unfold targetWindow
  omega

/-- A longer average in milliseconds is over no fewer samples. -/
theorem pointsOf_mono (cfg : SmoothingConfig Exact) (q : ℚ) (hkl : k ≤ l) :
    pointsOf cfg q k ≤ pointsOf cfg q l := by
  by_cases hpos : 0 < q ∧ 0 < k
  · have hwanted : Exact.roundHalfEven (k / q) ≤ Exact.roundHalfEven (l / q) :=
      Exact.roundHalfEven_mono (div_le_div_of_nonneg_right (by exact_mod_cast hkl) hpos.1.le)
    have hpos' : 0 < q ∧ 0 < l := ⟨hpos.1, Int.lt_of_lt_of_le hpos.2 hkl⟩
    unfold pointsOf
    rw [if_pos hpos, if_pos hpos']
    dsimp only
    split <;> split <;> omega
  · have hzero : pointsOf cfg q k = 0 := if_neg hpos
    rcases pointsOf_cases cfg q l with hl | hl <;> omega

/-! ## Longer windows -/

/-- **Zooming out smooths no less.** In exact numbers a longer window that is not infinite counts no fewer steps,
has no less tension, and an average over no fewer samples, none counting as zero. And every window is drawn
as it is when it is brought between the limits first. -/
theorem smooth_zooming_out {zoom : ZoomConfig} (henabled : cfg.enabled = true) (hfinite : TensionsFinite cfg)
    (hperStep : 0 ≤ cfg.windowPerStep) (hzoom : zoom.AllExact) (data labels : List Exact) :
    (∀ (v w : Number) (x y : Binary64), v.le w = true → v.toReal = .ok x → w.toReal = .ok y →
      y ≠ .infinite false →
      ∃ k l s t, Zoom.stepCount Exact (.number v) zoom = .ok k ∧ Zoom.stepCount Exact (.number w) zoom = .ok l ∧
        k ≤ l ∧
        smooth (data.map .ok) (labels.map .ok) cfg (.number v) zoom = .ok s ∧
        smooth (data.map .ok) (labels.map .ok) cfg (.number w) zoom = .ok t ∧
        le s.tension t.tension = true ∧
        ∃ interval m n, medianInterval (labels.map .ok) (.ok cfg.medianPoints) = .ok interval ∧
          points cfg interval k = .ok m ∧ s.data = averagedBy m cfg.snapLast data ∧
          points cfg interval l = .ok n ∧ t.data = averagedBy n cfg.snapLast data ∧ m ≤ n) ∧
    ∀ window : Json,
      (Zoom.clamp window zoom >>= fun w => smooth (data.map .ok) (labels.map .ok) cfg (.int w) zoom) =
        smooth (data.map .ok) (labels.map .ok) cfg window zoom := by
  refine ⟨fun v w x y hle hv hw hy => ?_, smooth_clamp henabled hzoom data labels⟩
  obtain ⟨i, j, hi, hj, hij⟩ := Zoom.between_whole_le zoom hle hv hw hy
  have hsteps := ZoomConfig.stepsAt_le hij
  have hk := Zoom.stepCount_eq hzoom hi
  have hl := Zoom.stepCount_eq hzoom hj
  obtain ⟨q, -, hq⟩ := intervalOf_number labels cfg.medianPoints
  obtain ⟨b, hb⟩ := Exact.exists_number (hfinite cfg.zoomBoost (by simp))
  have hinterval : medianInterval (labels.map .ok) (.ok cfg.medianPoints) = .ok (number q) := by
    rw [medianInterval_readable, hq]
  exact ⟨_, _, _, _, hk, hl, hsteps, smooth_number henabled hb hq hk data, smooth_number henabled hb hq hl data,
    tensionOf_mono hfinite b (number q) hsteps, number q, _, _, hinterval, points_eq cfg q _, rfl,
    points_eq cfg q _, rfl, pointsOf_mono cfg q (targetWindow_mono hperStep hsteps)⟩

/-- An average that grows by 20 milliseconds per step, and a tension that grows by 0.08. -/
def stepwise : SmoothingConfig Exact :=
  { briefly with
    fastInterval := 5, windowMin := 20, windowMax := 180, windowPerStep := 20, zoomBoost := number (2 / 25) }

/-- Two hours are four steps above one: the average is over ten samples then, and not over two. -/
theorem smooth_zooming_out_of_hours :
    stepwise.enabled = true ∧ TensionsFinite stepwise ∧ 0 ≤ stepwise.windowPerStep ∧
    ({} : ZoomConfig).AllExact ∧ (Number.int 3600000).le (.int 7200000) = true ∧
    ∃ s t, smooth (twoAfterGap.map .ok) (evenLabels.map .ok) stepwise (.int 3600000) {} = .ok s ∧
      smooth (twoAfterGap.map .ok) (evenLabels.map .ok) stepwise (.int 7200000) {} = .ok t ∧
      le s.tension t.tension = true ∧ s.data = averagedBy 2 false twoAfterGap ∧
      t.data = averagedBy 10 false twoAfterGap := by
  have hfinite : TensionsFinite stepwise := by decide
  have hzoom : ({} : ZoomConfig).AllExact := by decide
  have hone : Binary64.IsExact 3600000 := by decide
  have htwo : Binary64.IsExact 7200000 := by decide
  obtain ⟨k, l, s, t, hk, hl, -, hs, ht, htension, interval, m, n, hinterval, hm, hsdata, hn, htdata, -⟩ :=
    (smooth_zooming_out (rfl : stepwise.enabled = true) hfinite (by decide) hzoom twoAfterGap evenLabels).1
      (.int 3600000) (.int 7200000) _ _ (by decide) (Binary64.ofInt?_whole hone) (Binary64.ofInt?_whole htwo)
      (by decide +kernel)
  have hten : medianInterval (evenLabels.map .ok) (.ok stepwise.medianPoints) = .ok (number 10) :=
    (medianInterval_readable evenLabels 60).trans (congrArg Except.ok intervalOf_even)
  cases hinterval.symm.trans hten
  have hk' : k = 0 := by
    cases hk.symm.trans (Zoom.stepCount_eq hzoom (Zoom.whole_int hone))
    decide +kernel
  have hl' : l = 4 := by
    cases hl.symm.trans (Zoom.stepCount_eq hzoom (Zoom.whole_int htwo))
    decide +kernel
  have hm' : m = 2 := by
    cases hm.symm.trans (points_eq stepwise 10 k)
    subst hk'
    decide +kernel
  have hn' : n = 10 := by
    cases hn.symm.trans (points_eq stepwise 10 l)
    subst hl'
    decide +kernel
  exact ⟨rfl, hfinite, by decide, hzoom, by decide, s, t, hs, ht, htension, hm' ▸ hsdata, hn' ▸ htdata⟩

/-- The longest windows are not the ones of the most steps: an infinite one is above all others and counts as no
step above the shortest. -/
theorem not_stepCount_mono :
    ¬ ∀ (zoom : ZoomConfig) (v w : Number) (x y : Binary64), zoom.AllExact → v.le w = true →
      v.toReal = .ok x → w.toReal = .ok y →
      ∃ k l, Zoom.stepCount Exact (.number v) zoom = .ok k ∧ Zoom.stepCount Exact (.number w) zoom = .ok l ∧
        k ≤ l := by
  intro h
  have hzoom : ({} : ZoomConfig).AllExact := by decide
  have hthree : Binary64.IsExact 10800000 := by decide
  obtain ⟨k, l, hk, hl, hkl⟩ := h {} (.int 10800000) (.real (.infinite false)) _ _ hzoom (by decide)
    (Binary64.ofInt?_whole hthree) rfl
  have hk' : k = 8 := by
    cases hk.symm.trans (Zoom.stepCount_eq hzoom (Zoom.whole_int hthree))
    decide +kernel
  have hl' : l = 0 := by
    cases hl.symm.trans (Zoom.stepCount_eq hzoom (rfl : Zoom.whole (.real (.infinite false)) = .ok 0))
    decide +kernel
  omega

end Smoothing

end HashrateChart
