/-
How many steps a window is zoomed out.

With settings that binary64 numbers hold, the count is a formula in the whole number of
the window (`stepCount_eq`), and a longer window has no smaller one: rounding to a whole
number, the limits and the rounded quotient all keep the order. The order ends with the
longest windows of all: an infinite one counts as none.
-/
import HashrateChart.Proofs.Action
import HashrateChart.Proofs.Binary64.Order
import HashrateChart.Proofs.Exact
import HashrateChart.Proofs.Storage.Document
import HashrateChart.Proofs.Zoom

namespace HashrateChart

namespace ZoomConfig

variable {cfg : ZoomConfig} {w v : Int}

/-- Settings that are all binary64 numbers. -/
def AllExact (cfg : ZoomConfig) : Prop := cfg.IsExact ∧ Binary64.IsExact cfg.step

instance (cfg : ZoomConfig) : Decidable cfg.AllExact :=
  inferInstanceAs (Decidable (cfg.IsExact ∧ Binary64.IsExact cfg.step))

/-- The settings that are used in place of others. -/
def normalized (cfg : ZoomConfig) : ZoomConfig :=
  let least := max 1 cfg.minWindow
  ⟨least, max least (if cfg.maxWindow = 0 then least else cfg.maxWindow), max 1 cfg.step⟩

/-- A whole number of milliseconds brought between the limits. -/
def between (cfg : ZoomConfig) (w : Int) : Int := min cfg.maxWindow (max cfg.minWindow w)

theorem normalized_minWindow (cfg : ZoomConfig) : cfg.normalized.minWindow = max 1 cfg.minWindow := rfl

theorem one_le_step (cfg : ZoomConfig) : 1 ≤ cfg.normalized.step := Int.le_max_left _ _

theorem minWindow_le_maxWindow (cfg : ZoomConfig) : cfg.normalized.minWindow ≤ cfg.normalized.maxWindow :=
  Int.le_max_left _ _

theorem normalized_normalized (cfg : ZoomConfig) : cfg.normalized.normalized = cfg.normalized := by
  have hmin : max 1 cfg.normalized.minWindow = cfg.normalized.minWindow := by
    rw [normalized_minWindow]
    omega
  have hmax : cfg.normalized.maxWindow ≠ 0 := by
    have := cfg.minWindow_le_maxWindow
    omega
  have hstep : max 1 cfg.normalized.step = cfg.normalized.step := Int.max_eq_right cfg.one_le_step
  rw [normalized, hmin, if_neg hmax, hstep, Int.max_eq_right cfg.minWindow_le_maxWindow]

theorem AllExact.normalized (h : cfg.AllExact) : cfg.normalized.AllExact := by
  obtain ⟨⟨hmin, hmax⟩, hstep⟩ := h
  simp only [AllExact, IsExact, ZoomConfig.normalized, Binary64.IsExact] at hmin hmax hstep ⊢
  refine ⟨⟨?_, ?_⟩, ?_⟩
  · omega
  · split <;> omega
  · omega

theorem minWindow_le_between (cfg : ZoomConfig) (w : Int) :
    cfg.normalized.minWindow ≤ cfg.normalized.between w :=
  Int.le_min.mpr ⟨cfg.minWindow_le_maxWindow, Int.le_max_left _ _⟩

theorem between_between (cfg : ZoomConfig) (w : Int) :
    cfg.normalized.between (cfg.normalized.between w) = cfg.normalized.between w := by
  have hlow := cfg.minWindow_le_between w
  have hhigh : cfg.normalized.between w ≤ cfg.normalized.maxWindow := Int.min_le_left _ _
  rw [between, Int.max_eq_right hlow, Int.min_eq_right hhigh]

theorem between_mono (cfg : ZoomConfig) (h : w ≤ v) : cfg.between w ≤ cfg.between v := by
  unfold between
  omega

theorem between_of_le (h : w ≤ 1) : cfg.normalized.between w = cfg.normalized.minWindow := by
  have hmin := cfg.normalized_minWindow
  have hmax := cfg.minWindow_le_maxWindow
  unfold between
  omega

theorem isExact_between (h : cfg.AllExact) (w : Int) : Binary64.IsExact (cfg.between w) := by
  obtain ⟨⟨hmin, hmax⟩, -⟩ := h
  unfold between
  unfold Binary64.IsExact at hmin hmax ⊢
  omega

/-- The steps from the shortest window to a whole number of milliseconds. -/
def stepsAt (cfg : ZoomConfig) (w : Int) : Int :=
  max 0 (Exact.roundHalfEven (((cfg.between w - cfg.minWindow : Int) : ℚ) / cfg.step))

theorem stepsAt_le (h : cfg.normalized.between w ≤ cfg.normalized.between v) :
    cfg.normalized.stepsAt w ≤ cfg.normalized.stepsAt v := by
  have hstep : (0 : ℚ) ≤ cfg.normalized.step := by exact_mod_cast Int.le_trans (by decide) cfg.one_le_step
  have hover : cfg.normalized.between w - cfg.normalized.minWindow ≤
      cfg.normalized.between v - cfg.normalized.minWindow := Int.sub_le_sub_right h _
  refine max_le_max_left 0 (Exact.roundHalfEven_mono ?_)
  exact div_le_div_of_nonneg_right (by exact_mod_cast hover) hstep

end ZoomConfig

namespace Zoom

variable {cfg : ZoomConfig} {window : Json} {w : Int}

theorem normalize_eq (h : cfg.AllExact) : normalize cfg = .ok cfg.normalized := by
  obtain ⟨⟨hmin, hmax⟩, hstep⟩ := h
  unfold normalize
  rw [whole_int hmin, whole_int hmax, whole_int hstep]
  rfl

theorem clamp_eq (h : cfg.AllExact) (window : Json) :
    clamp window cfg = (whole window).map cfg.normalized.between := by
  unfold clamp
  rw [normalize_eq h]
  cases whole window <;> rfl

/-- The limits that are used are brought to themselves. -/
theorem clamp_normalized (h : cfg.AllExact) (window : Json) : clamp window cfg.normalized = clamp window cfg := by
  rw [clamp_eq h, clamp_eq h.normalized, cfg.normalized_normalized]

/-- A window between the limits is brought to itself. -/
theorem clamp_clamp (h : cfg.AllExact) (hc : clamp window cfg = .ok w) : clamp (.int w) cfg = .ok w := by
  rw [clamp_eq h] at hc ⊢
  cases hw : whole window with
  | error e => rw [hw] at hc; cases hc
  | ok v =>
    rw [hw] at hc
    cases hc
    rw [whole_int (ZoomConfig.isExact_between h.normalized v)]
    exact congrArg Except.ok (cfg.between_between v)

/-- The count sees a window only as it is between the limits. -/
theorem stepCount_clamp {α : Type} [Arithmetic α] (h : cfg.AllExact) (hc : clamp window cfg = .ok w) :
    stepCount α (.int w) cfg = stepCount α window cfg := by
  unfold stepCount
  rw [normalize_eq h, bind_of_ok rfl, bind_of_ok rfl, clamp_normalized h, clamp_normalized h, hc, clamp_clamp h hc]

theorem stepCount_error {α : Type} [Arithmetic α] (h : cfg.AllExact) {e : Fault}
    (hc : clamp window cfg = .error e) : stepCount α window cfg = .error e := by
  unfold stepCount
  rw [normalize_eq h, bind_of_ok rfl, clamp_normalized h, hc]
  rfl

/-- The count in exact numbers. -/
theorem stepCount_eq (h : cfg.AllExact) (hw : whole window = .ok w) :
    stepCount Exact window cfg = .ok (cfg.normalized.stepsAt w) := by
  have hstep : 0 < cfg.normalized.step := Int.lt_of_lt_of_le (by decide) cfg.one_le_step
  unfold stepCount
  rw [normalize_eq h, bind_of_ok rfl, clamp_normalized h, clamp_eq h, hw]
  show (Arithmetic.quotient _ _ >>= _) = _
  rw [bind_of_ok (Exact.quotient_eq _ hstep)]
  rfl

/-! ## Windows in order -/

theorem nearest_of_zero {s : Bool} {m : Magnitude} (h : Binary64.signed s m.units = 0) :
    (Binary64.finite s m).nearest = .ok 0 := by
  show Except.ok (Binary64.signed _ (roundHalfEven (Binary64.signed s m.units).natAbs unitsPerOne)) = _
  rw [h, Int.natAbs_zero, roundHalfEven_zero]
  rfl

/-- A value that is read as a number: nothing at all counts as zero, and so does a number that is not finite. -/
theorem whole_of_toReal {x : Binary64} (h : window.toReal = .ok x) :
    whole window = if x.isFinite then x.nearest else .ok 0 := by
  have hzero (hx : Arithmetic.ofInt? 0 = .ok x) : (if x.isFinite then x.nearest else .ok 0) = .ok 0 := by
    have hexact : Binary64.IsExact 0 := by decide
    cases (Binary64.ofInt?_whole hexact).symm.trans hx
    rw [if_pos (Binary64.isFinite_whole hexact), Binary64.nearest_whole hexact]
  unfold whole
  rw [h]
  cases window with
  | null | list items | object fields => cases h
  | bool b =>
    cases b with
    | true => rfl
    | false => exact (hzero h).symm
  | text s =>
    by_cases hs : s = ""
    · have hempty : Decimal.readReal? "" = none := by decide +kernel
      simp only [hs, Json.toReal, hempty] at h
      cases h
    · have htruthy : (Json.text s).truthy = true := decide_eq_true hs
      rw [htruthy]
      rfl
  | number n =>
    have htruthy : (Json.number n).truthy = !n.isZero := rfl
    rw [htruthy]
    cases hz : n.isZero with
    | false => rfl
    | true =>
      -- zero counts as nothing, and its nearest whole number is zero
      cases n with
      | int i =>
        obtain rfl : i = 0 := of_decide_eq_true hz
        exact (hzero h).symm
      | real y =>
        cases h
        cases x with
        | nan | infinite s => rfl
        | finite s m =>
          have hunits : Binary64.signed s m.units = 0 * unitsPerOne := of_decide_eq_true hz
          rw [Int.zero_mul] at hunits
          exact (nearest_of_zero hunits).symm

theorem exists_whole_of_toReal {x : Binary64} (h : window.toReal = .ok x) : ∃ w, whole window = .ok w := by
  unfold whole
  rw [h]
  cases window.truthy with
  | false => exact ⟨0, rfl⟩
  | true =>
    cases x with
    | nan | infinite s => exact ⟨0, rfl⟩
    | finite s m => exact ⟨_, rfl⟩

/-- Whatever is in range has a whole number. -/
theorem exists_whole (h : window.InRange) : ∃ w, whole window = .ok w := by
  cases window with
  | null => exact ⟨0, rfl⟩
  | bool b => cases b <;> exact exists_whole_of_toReal (Binary64.ofInt?_whole (by decide))
  | number n => exact exists_whole_of_toReal h.choose_spec
  | text s =>
    cases hs : Decimal.readReal? s with
    | some x =>
      refine exists_whole_of_toReal (x := x) ?_
      simp only [Json.toReal, hs]
    | none =>
      have hreal : (Json.text s).toReal = .error .badNumeral := by simp only [Json.toReal, hs]
      unfold whole
      rw [hreal]
      cases (Json.text s).truthy <;> exact ⟨0, rfl⟩
  | list items => cases items <;> exact ⟨0, rfl⟩
  | object fields => cases fields <;> exact ⟨0, rfl⟩

/-- What is below a number that is not infinite is infinite only when it is negative. -/
theorem cases_of_le {x y : Binary64} (h : x.le y = true) (hy : y ≠ .infinite false) :
    x = .infinite true ∨ x.isFinite = true ∧ y.isFinite = true := by
  obtain ⟨k, l, hk, hl, hkl⟩ := Binary64.exists_key?_of_le h
  have hbelow (s : Bool) (m : Magnitude) :
      -magnitudeLimit < Binary64.signed s m.units ∧ Binary64.signed s m.units < magnitudeLimit := by
    have hm := m.representable.1
    unfold Binary64.signed
    split <;> omega
  cases x with
  | nan => cases hk
  | infinite s =>
    cases s with
    | true => exact .inl rfl
    | false =>
      cases hk
      cases y with
      | nan => cases hl
      | infinite t =>
        cases t with
        | false => exact absurd rfl hy
        | true => exact absurd hkl (by cases hl; decide +kernel)
      | finite t n =>
        cases hl
        exact absurd hkl (Int.not_le.mpr (hbelow t n).2)
  | finite s m =>
    cases hk
    cases y with
    | nan => cases hl
    | infinite t =>
      cases t with
      | false => exact absurd rfl hy
      | true =>
        cases hl
        exact absurd hkl (Int.not_le.mpr (hbelow s m).1)
    | finite t n => exact .inr ⟨rfl, rfl⟩

/-- **A longer window is brought to no shorter one**, unless it is infinite. -/
theorem between_whole_le_of_reading (cfg : ZoomConfig) {a b : Json} {x y : Binary64} (ha : a.toReal = .ok x)
    (hb : b.toReal = .ok y) (h : x.le y = true) (hy : y ≠ .infinite false) :
    ∃ v w, whole a = .ok v ∧ whole b = .ok w ∧ cfg.normalized.between v ≤ cfg.normalized.between w := by
  obtain ⟨w, hw⟩ := exists_whole_of_toReal hb
  rcases cases_of_le h hy with rfl | ⟨hx, hfin⟩
  · have hzero : whole a = .ok 0 := whole_of_toReal ha
    refine ⟨0, w, hzero, hw, ?_⟩
    rw [cfg.between_of_le (by decide)]
    exact cfg.minWindow_le_between w
  · obtain ⟨v, hv⟩ := exists_whole_of_toReal ha
    refine ⟨v, w, hv, hw, cfg.normalized.between_mono ?_⟩
    rw [whole_of_toReal ha, if_pos hx] at hv
    rw [whole_of_toReal hb, if_pos hfin] at hw
    exact Binary64.nearest_le h hv hw

/-- Numbers in order are read in order. -/
theorem between_whole_le (cfg : ZoomConfig) {a b : Number} {x y : Binary64} (h : a.le b = true)
    (ha : a.toReal = .ok x) (hb : b.toReal = .ok y) (hy : y ≠ .infinite false) :
    ∃ v w, whole (.number a) = .ok v ∧ whole (.number b) = .ok w ∧
      cfg.normalized.between v ≤ cfg.normalized.between w :=
  between_whole_le_of_reading cfg ha hb (Number.toReal_le h ha hb) hy

end Zoom

end HashrateChart
