/-
The temperature axis between two pictures.

Each bound goes its own way: in by at most the hysteresis, out when the new bound is
further out than the hysteresis, and nowhere in between. On rational numbers that is a
formula (`sticky_number`), and the upper bound is the lower one seen from the other
side. A range that is only a little further out than before stays outside the axis, and
with a narrow axis the two bounds can even cross; these are the only ways in which a new
range is not enclosed (`sticky_trails`).
-/
import Mathlib.Algebra.Order.Group.MinMax
import HashrateChart.Proofs.Axis.Toggle

namespace HashrateChart

open Exact (number)

namespace Axis

variable {prev new h : ℚ}

/-! ## One bound -/

/-- Where a lower bound goes for a new one. -/
def lowerAfter (prev new h : ℚ) : ℚ :=
  if prev + h < new then prev + h else if new < prev - h then new else prev

/-- Where an upper bound goes for a new one. -/
def upperAfter (prev new h : ℚ) : ℚ :=
  if new < prev - h then prev - h else if prev + h < new then new else prev

/-- Seen from the other side an upper bound is a lower one. -/
theorem upperAfter_eq (prev new h : ℚ) : upperAfter prev new h = -lowerAfter (-prev) (-new) h := by
  have hin : new < prev - h ↔ -prev + h < -new := by constructor <;> intro <;> linarith
  have hout : prev + h < new ↔ -new < -prev - h := by constructor <;> intro <;> linarith
  simp only [upperAfter, lowerAfter, hin, hout]
  split_ifs <;> ring

theorem lowerAfter_le (hh : 0 ≤ h) : lowerAfter prev new h ≤ prev + h := by
  unfold lowerAfter
  split_ifs <;> linarith

theorem min_le_lowerAfter (hh : 0 ≤ h) : min prev new ≤ lowerAfter prev new h := by
  unfold lowerAfter
  split_ifs
  · exact min_le_of_left_le (by linarith)
  · exact min_le_right prev new
  · exact min_le_left prev new

/-- A lower bound encloses the new one, unless that is further out than before by no more than `h`. -/
theorem lowerAfter_le_new_iff (hh : 0 ≤ h) :
    lowerAfter prev new h ≤ new ↔ ¬ (prev - h ≤ new ∧ new < prev) := by
  rw [not_and, not_lt]
  unfold lowerAfter
  split_ifs with hin hout
  · exact iff_of_true hin.le fun _ => by linarith
  · exact iff_of_true le_rfl fun hle => absurd hout (not_lt.mpr hle)
  · exact ⟨fun hle _ => hle, fun hle => hle (not_lt.mp hout)⟩

theorem le_upperAfter (hh : 0 ≤ h) : prev - h ≤ upperAfter prev new h := by
  have hle : lowerAfter (-prev) (-new) h ≤ -prev + h := lowerAfter_le hh
  rw [upperAfter_eq]
  linarith

theorem upperAfter_le_max (hh : 0 ≤ h) : upperAfter prev new h ≤ max prev new := by
  rw [upperAfter_eq, neg_le, ← min_neg_neg]
  exact min_le_lowerAfter hh

theorem new_le_upperAfter_iff (hh : 0 ≤ h) :
    new ≤ upperAfter prev new h ↔ ¬ (prev < new ∧ new ≤ prev + h) := by
  rw [upperAfter_eq, le_neg, lowerAfter_le_new_iff hh, not_iff_not, neg_lt_neg_iff, and_comm]
  exact and_congr_right fun _ => by constructor <;> intro <;> linarith

/-! ## The range -/

variable {newMin newMax prevMin prevMax : ℚ}

theorem sticky_number (newMin newMax prevMin prevMax h : ℚ) :
    sticky (number newMin) (number newMax) (remembered (some (number prevMin, number prevMax)))
        (.ok (number h)) =
      .ok (number (lowerAfter prevMin newMin h), number (upperAfter prevMax newMax h)) := by
  simp only [sticky, stickyBounds, remembered, Option.map_some, bind, Except.bind, Exact.isFinite_number,
    stickyMin, stickyMax, Exact.number_add, Exact.number_sub, Exact.lt_number, decide_eq_true_eq, lowerAfter,
    upperAfter, Bool.not_true, Bool.false_eq_true, if_false, pure, Except.pure]
  split_ifs <;> rfl

/-- How an axis that follows a range stands to that range and to the axis before. -/
structure Trails (newMin newMax prevMin prevMax h lo hi : ℚ) : Prop where
  lo_le : lo ≤ prevMin + h
  le_hi : prevMax - h ≤ hi
  min_le : min prevMin newMin ≤ lo
  le_max : hi ≤ max prevMax newMax
  /-- The start is enclosed unless it is further out than before by no more than `h`. -/
  encloses_min : lo ≤ newMin ↔ ¬ (prevMin - h ≤ newMin ∧ newMin < prevMin)
  /-- So is the end. -/
  encloses_max : newMax ≤ hi ↔ ¬ (prevMax < newMax ∧ newMax ≤ prevMax + h)

/-- **The temperature axis contracts slowly.** For every new range and every axis before, each bound
moves in by at most the hysteresis and never further out than the wider of the two; and the axis
encloses the new range, and each value in it, exactly unless a bound of the range is further out than
the axis before by no more than the hysteresis. -/
theorem sticky_trails (hnew : newMin ≤ newMax) (hh : 0 ≤ h) (prevMin prevMax : ℚ) :
    ∃ lo hi : ℚ,
      sticky (number newMin) (number newMax) (remembered (some (number prevMin, number prevMax)))
        (.ok (number h)) = .ok (number lo, number hi) ∧
      Trails newMin newMax prevMin prevMax h lo hi ∧
      (¬ (prevMin - h ≤ newMin ∧ newMin < prevMin) → ¬ (prevMax < newMax ∧ newMax ≤ prevMax + h) →
        lo ≤ hi ∧ ∀ v, newMin ≤ v → v ≤ newMax → lo ≤ v ∧ v ≤ hi) := by
  have htrails : Trails newMin newMax prevMin prevMax h (lowerAfter prevMin newMin h)
      (upperAfter prevMax newMax h) := {
    lo_le := lowerAfter_le hh
    le_hi := le_upperAfter hh
    min_le := min_le_lowerAfter hh
    le_max := upperAfter_le_max hh
    encloses_min := lowerAfter_le_new_iff hh
    encloses_max := new_le_upperAfter_iff hh }
  refine ⟨_, _, sticky_number newMin newMax prevMin prevMax h, htrails, fun hmin hmax => ?_⟩
  have hlo := htrails.encloses_min.mpr hmin
  have hhi := htrails.encloses_max.mpr hmax
  exact ⟨hlo.trans (hnew.trans hhi), fun v hge hle => ⟨hlo.trans hge, hle.trans hhi⟩⟩

/-- A range that is further in at its start and further out at its end. -/
theorem sticky_trails_of_shifted :
    (12 : ℚ) ≤ 60 ∧ (0 : ℚ) ≤ 1 ∧ ∃ lo hi : ℚ,
      sticky (number 12) (number 60) (remembered (some (number 10, number 50))) (.ok (number 1)) =
        .ok (number lo, number hi) ∧
      Trails 12 60 10 50 1 lo hi ∧ lo ≤ hi ∧ ∀ v, 12 ≤ v → v ≤ 60 → lo ≤ v ∧ v ≤ hi := by
  have hnew : (12 : ℚ) ≤ 60 := by norm_num
  have hh : (0 : ℚ) ≤ 1 := by norm_num
  obtain ⟨lo, hi, hsticky, htrails, hencloses⟩ := sticky_trails hnew hh 10 50
  exact ⟨hnew, hh, lo, hi, hsticky, htrails, hencloses (by norm_num) (by norm_num)⟩

/-- A range that is a little further out on both sides is not enclosed. -/
theorem not_sticky_encloses :
    ¬ ∀ newMin newMax prevMin prevMax h : ℚ, newMin ≤ newMax → prevMin ≤ prevMax → 0 ≤ h →
      ∃ lo hi : ℚ,
        sticky (number newMin) (number newMax) (remembered (some (number prevMin, number prevMax)))
          (.ok (number h)) = .ok (number lo, number hi) ∧
        lo ≤ newMin ∧ newMax ≤ hi ∧ lo ≤ hi ∧ lo ≤ prevMin + h ∧ prevMax - h ≤ hi ∧
        min prevMin newMin ≤ lo ∧ hi ≤ max prevMax newMax := by
  intro hall
  obtain ⟨lo, hi, hsticky, hlo, -⟩ :=
    hall (19 / 2) (101 / 2) 10 50 1 (by norm_num) (by norm_num) (by norm_num)
  have hstays : lowerAfter 10 (19 / 2) 1 = 10 := by norm_num [lowerAfter]
  rw [sticky_number, hstays] at hsticky
  cases hsticky
  norm_num at hlo

/-- The bounds of a narrow axis can cross. -/
example : sticky (number 16) (number 16) (remembered (some (number 10, number 12))) (.ok (number 5)) =
    .ok (number 15, number 12) := by
  rw [sticky_number]
  norm_num [lowerAfter, upperAfter]

end Axis

end HashrateChart
