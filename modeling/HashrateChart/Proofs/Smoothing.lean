/-
What decides how the curve is drawn.

For values that can all be read, the window and the zoom decide it through the number of
steps alone (`smooth_eq`). In exact numbers nothing fails on the way: the time between
samples is a number that is not negative, the tension is a number, and an average is
taken of no samples or of at least two (`drawn_eq`).
-/
import HashrateChart.Proofs.Axis.Window
import HashrateChart.Proofs.Exact
import HashrateChart.Smoothing

namespace HashrateChart

open Arithmetic
open Exact (number)

namespace Smoothing

/-! ## The time between samples -/

section Interval

variable {α : Type} [Arithmetic α]

/-- The median time between labels that can all be read. -/
def intervalOf (labels : List α) (points : Int) : α :=
  if labels.length < 3 then zero
  else medianGap (lastItems ((max 1 (min points (labels.length - 1))).toNat + 1) labels)

theorem lastItems_map {β γ : Type} (f : β → γ) (n : Nat) (xs : List β) :
    lastItems n (xs.map f) = (lastItems n xs).map f := by
  rw [lastItems, lastItems, List.length_map, List.map_drop]

theorem medianInterval_readable (labels : List α) (points : Int) :
    medianInterval (labels.map .ok) (.ok points) = .ok (intervalOf labels points) := by
  unfold medianInterval intervalOf
  rw [List.length_map]
  split
  · rfl
  · rw [bind_of_ok rfl]
    dsimp only
    rw [lastItems_map, Axis.readAll_ok]
    rfl

end Interval

/-- The median of positive numbers is a positive number. -/
theorem median_pos {steps : List Exact} (hne : steps ≠ [])
    (h : ∀ d ∈ steps, ∃ q : ℚ, 0 < q ∧ d = number q) :
    ∃ q : ℚ, 0 < q ∧ median steps = number q := by
  have hperm := List.mergeSort_perm steps Arithmetic.le
  have hpos : 0 < (steps.mergeSort Arithmetic.le).length := by
    rw [hperm.length_eq]
    exact List.length_pos_iff.mpr hne
  have hat (i : Nat) (hi : i < (steps.mergeSort Arithmetic.le).length) :
      ∃ q : ℚ, 0 < q ∧ (steps.mergeSort Arithmetic.le).getD i zero = number q := by
    rw [List.getD_eq_getElem?_getD, List.getElem?_eq_getElem hi]
    exact h _ (hperm.mem_iff.mp (List.getElem_mem hi))
  obtain ⟨q, hq, hmid⟩ := hat ((steps.mergeSort Arithmetic.le).length / 2) (by omega)
  unfold median
  dsimp only
  split
  · exact ⟨q, hq, hmid⟩
  · obtain ⟨p, hp, hlow⟩ := hat ((steps.mergeSort Arithmetic.le).length / 2 - 1) (by omega)
    refine ⟨(p + q) / (2 : ℤ), by positivity, ?_⟩
    rw [hlow, hmid, Exact.number_add, Exact.whole_eq, Exact.number_div _ (by norm_num)]

/-- The time between samples is a number. -/
theorem intervalOf_number (labels : List Exact) (points : Int) :
    ∃ q : ℚ, 0 ≤ q ∧ intervalOf labels points = number q := by
  unfold intervalOf medianGap
  split
  · exact ⟨0, le_rfl, Exact.zero_eq⟩
  · dsimp only
    split
    · exact ⟨0, le_rfl, Exact.zero_eq⟩
    · next hsome =>
      rw [List.isEmpty_iff] at hsome
      obtain ⟨q, hq, heq⟩ := median_pos hsome fun d hd => by
        have hd := (List.mem_filter.mp hd).2
        cases d with
        | gap | infinite s => cases hd
        | number q =>
          rw [Exact.zero_eq, Exact.lt_number] at hd
          exact ⟨q, by simpa using hd, rfl⟩
      exact ⟨q, hq.le, heq⟩

/-! ## The number of steps -/

section Steps

variable {α : Type} [Arithmetic α] {cfg : SmoothingConfig α}

/-- The curve to draw after a number of zoom steps. -/
def drawn (data : List α) (cfg : SmoothingConfig α) (interval : α) (steps : Int) : Result (SmoothedSeries α) := do
  let tension ← tension cfg interval steps
  let n ← points cfg interval steps
  if n = 0 then return ⟨data, tension, some cfg.mode⟩
  let averaged ← ema (.ofShare (whole 2 / (← ofInt? (n + 1)))) (data.map .ok)
  return ⟨if cfg.snapLast then snapLast data averaged else averaged, tension, some cfg.mode⟩

/-- The window and the zoom decide nothing but the number of steps. -/
theorem smooth_eq (henabled : cfg.enabled = true) (data labels : List α) (window : Json) (zoom : ZoomConfig) :
    smooth (data.map .ok) (labels.map .ok) cfg window zoom =
      Zoom.stepCount α window zoom >>= drawn data cfg (intervalOf labels cfg.medianPoints) := by
  unfold smooth
  rw [Axis.readAll_ok, bind_of_ok rfl, henabled, medianInterval_readable]
  rfl

end Steps

/-! ## Exact numbers -/

variable {cfg : SmoothingConfig Exact} {b q : ℚ}

/-- The tension added per zoom step. -/
def boostOf (b : ℚ) : ℚ := max 0 (Exact.roundHalfEven (b * 1000) / 1000)

theorem boostPerStep_eq (hb : cfg.zoomBoost = number b) : boostPerStep cfg = .ok (number (boostOf b)) := by
  unfold boostPerStep
  rw [hb, Exact.whole_eq, Exact.number_mul, Exact.nearest_number, bind_of_ok rfl,
    bind_of_ok (Exact.quotient_eq _ (by decide)), Exact.zero_eq, Exact.larger_number]
  rfl

/-- The tension after a number of zoom steps. -/
def tensionOf (cfg : SmoothingConfig Exact) (b : ℚ) (interval : Exact) (steps : Int) : Exact :=
  if 0 < boostOf b then smaller cfg.tensionFast (baseTension cfg interval + number (steps * boostOf b))
  else baseTension cfg interval

theorem tension_eq (hb : cfg.zoomBoost = number b) (interval : Exact) (steps : Int) :
    tension cfg interval steps = .ok (tensionOf cfg b interval steps) := by
  unfold tension tensionOf
  rw [boostPerStep_eq hb, bind_of_ok rfl, Exact.zero_eq, Exact.lt_number]
  by_cases hpos : 0 < boostOf b
  · rw [decide_eq_true hpos, if_pos hpos, Exact.ofInt?_eq, ← Exact.number_mul]
    rfl
  · rw [decide_eq_false hpos, if_neg hpos]
    rfl

/-- The length of the average in samples, for a length in milliseconds. -/
def pointsOf (cfg : SmoothingConfig Exact) (q : ℚ) (target : Int) : Int :=
  if 0 < q ∧ 0 < target then
    let wanted := Exact.roundHalfEven (target / q)
    let least := max 2 cfg.minPoints
    if wanted < 2 then 0 else min (max wanted least) (max least cfg.maxPoints)
  else 0

theorem points_eq (cfg : SmoothingConfig Exact) (q : ℚ) (steps : Int) :
    points cfg (number q) steps = .ok (pointsOf cfg q (targetWindow cfg steps)) := by
  unfold points pointsOf
  simp only [Exact.zero_eq, Exact.lt_number, Bool.and_eq_true, decide_eq_true_eq]
  split
  · next h =>
    rw [Exact.ofInt?_eq, bind_of_ok rfl, Exact.number_div _ h.1.ne', Exact.nearest_number, bind_of_ok rfl]
    split <;> rfl
  · rfl

/-- An average is taken of no samples or of at least two. -/
theorem pointsOf_cases (cfg : SmoothingConfig Exact) (q : ℚ) (target : Int) :
    pointsOf cfg q target = 0 ∨ 2 ≤ pointsOf cfg q target := by
  unfold pointsOf
  split
  · dsimp only
    split <;> omega
  · exact .inl rfl

end Smoothing

end HashrateChart
