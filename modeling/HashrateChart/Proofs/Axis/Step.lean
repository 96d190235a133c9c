/-
The distance between ticks, without rounding.

The search keeps the best step among those it has gone through (`Found`), so it ends with
the best of all: a round step that is not below the least one, whose number of ticks comes
nearest to the wanted one, the largest of those that come equally near (`Best`). Neither
the range nor the wanted number matters for that. The step that is picked is positive in
any case, so every range can be aligned to it (`pickStep_best`).
-/
import Mathlib.Tactic.Linarith
import HashrateChart.Axis.Bounds
import HashrateChart.Proofs.Action
import HashrateChart.Proofs.Exact

namespace HashrateChart

open Arithmetic

open Exact (number)

namespace Axis

/-! ## Ticks -/

/-- The round steps as rational numbers. -/
def roundRatios : List ℚ := [1 / 200, 1 / 100, 1 / 50, 1 / 20, 1 / 10, 1 / 5, 1 / 4, 1 / 2, 1, 2, 5, 10]

theorem roundSteps_eq : (roundSteps : List Exact) = roundRatios.map number := by
  simp only [roundSteps, roundRatios, Exact.ratio_eq, Exact.whole_eq, List.map_cons, List.map_nil]
  norm_num

theorem roundRatios_pos : ∀ s ∈ roundRatios, 0 < s := by
  intro s hs
  simp only [roundRatios, List.mem_cons, List.not_mem_nil, or_false] at hs
  rcases hs with rfl | rfl | rfl | rfl | rfl | rfl | rfl | rfl | rfl | rfl | rfl | rfl <;> norm_num

/-- How many ticks a step puts on a range. -/
def ticksOf (range step : ℚ) : ℤ := ⌊range / step⌋ + 1

/-- How far a number of ticks is from the wanted one; more ticks than wanted cost a quarter more. -/
def scoreOf (maxTicks ticks : ℤ) : ℚ := |ticks - maxTicks| + if maxTicks < ticks then 1 / 4 else 0

theorem tickCount_number (range : ℚ) {step : ℚ} (h : 0 < step) :
    tickCount (number range) (number step) = .ok (ticksOf range step) := by
  rw [tickCount, Exact.number_div range h.ne']
  rfl

theorem score_number (ticks maxTicks : ℤ) : score ticks maxTicks = .ok (number (scoreOf maxTicks ticks)) := by
  have hquarter : (ratio 25 100 : Exact) = number (1 / 4) := by
    rw [Exact.ratio_eq]
    norm_num
  rw [score, Exact.ofInt?_eq, scoreOf, hquarter, Exact.zero_eq, ← apply_ite number, Int.natCast_natAbs]
  rfl

/-! ## The search -/

/-- The step among some that is not below the least one and has the lowest cost; a tie goes to the larger. -/
structure Best (steps : List ℚ) (cost : ℚ → ℚ) (least step : ℚ) : Prop where
  mem : step ∈ steps
  least_le : least ≤ step
  cost_le : ∀ other ∈ steps, least ≤ other → cost step ≤ cost other
  le_of_cost_eq : ∀ other ∈ steps, least ≤ other → cost other = cost step → other ≤ step

variable {steps : List ℚ} {cost : ℚ → ℚ} {least s t : ℚ}

/-- A step that is below the least one changes nothing. -/
theorem Best.concat_of_lt (h : Best steps cost least s) (hlt : t < least) : Best (steps ++ [t]) cost least s where
  mem := List.mem_append_left _ h.mem
  least_le := h.least_le
  cost_le := List.forall_mem_append.mpr
    ⟨h.cost_le, List.forall_mem_singleton.mpr fun hle => absurd hlt (not_lt.mpr hle)⟩
  le_of_cost_eq := List.forall_mem_append.mpr
    ⟨h.le_of_cost_eq, List.forall_mem_singleton.mpr fun hle _ => absurd hlt (not_lt.mpr hle)⟩

/-- A step that is no better is passed over. -/
theorem Best.concat_of_no_better (h : Best steps cost least s) (hcost : cost s ≤ cost t)
    (htie : cost t = cost s → t ≤ s) : Best (steps ++ [t]) cost least s where
  mem := List.mem_append_left _ h.mem
  least_le := h.least_le
  cost_le := List.forall_mem_append.mpr ⟨h.cost_le, List.forall_mem_singleton.mpr fun _ => hcost⟩
  le_of_cost_eq := List.forall_mem_append.mpr ⟨h.le_of_cost_eq, List.forall_mem_singleton.mpr fun _ => htie⟩

/-- A better step takes the place. -/
theorem Best.concat_of_better (h : Best steps cost least s) (ht : least ≤ t) (hcost : cost t ≤ cost s)
    (htie : cost s = cost t → s ≤ t) : Best (steps ++ [t]) cost least t where
  mem := List.mem_append_right _ (List.mem_singleton_self t)
  least_le := ht
  cost_le := List.forall_mem_append.mpr
    ⟨fun other hm hle => hcost.trans (h.cost_le other hm hle), List.forall_mem_singleton.mpr fun _ => le_rfl⟩
  le_of_cost_eq := by
    refine List.forall_mem_append.mpr
      ⟨fun other hm hle heq => ?_, List.forall_mem_singleton.mpr fun _ _ => le_rfl⟩
    have hsame : cost s = cost t := le_antisymm ((h.cost_le other hm hle).trans heq.le) hcost
    exact (h.le_of_cost_eq other hm hle (heq.trans hsame.symm)).trans (htie hsame)

/-- The first step that is not below the least one is the best so far. -/
theorem Best.concat_of_first (hnone : ∀ other ∈ steps, other < least) (ht : least ≤ t) :
    Best (steps ++ [t]) cost least t where
  mem := List.mem_append_right _ (List.mem_singleton_self t)
  least_le := ht
  cost_le := List.forall_mem_append.mpr
    ⟨fun other hm hle => absurd (hnone other hm) (not_lt.mpr hle), List.forall_mem_singleton.mpr fun _ => le_rfl⟩
  le_of_cost_eq := List.forall_mem_append.mpr
    ⟨fun other hm hle _ => absurd (hnone other hm) (not_lt.mpr hle),
      List.forall_mem_singleton.mpr fun _ _ => le_rfl⟩

/-- What the search holds when it has gone through some steps: nothing while all of them are below the
least one, and then the best of them with its cost. -/
def Found (cost : ℚ → ℚ) (least : ℚ) (steps : List ℚ) (best : Option Exact × Exact) : Prop :=
  best = (none, largestStep) ∧ (∀ other ∈ steps, other < least) ∨
    ∃ s, best = (some (number (cost s)), number s) ∧ Best steps cost least s

/-- What a step costs on a range. -/
def costOn (range : ℚ) (maxTicks : ℤ) (step : ℚ) : ℚ := scoreOf maxTicks (ticksOf range step)

/-- One more step, and the search holds the best of all that it has gone through. -/
theorem betterStep_found (range : ℚ) (maxTicks : ℤ) {best : Option Exact × Exact}
    (hfound : Found (costOn range maxTicks) least steps best) (ht : 0 < t) :
    ∃ next, betterStep (number range) maxTicks (number least) best (number t) = .ok next ∧
      Found (costOn range maxTicks) least (steps ++ [t]) next := by
  unfold betterStep
  rw [Exact.lt_number, tickCount_number range ht]
  simp only [bind, Except.bind, score_number, decide_eq_true_eq]
  by_cases hlt : t < least
  · rw [if_pos hlt]
    refine ⟨best, rfl, ?_⟩
    rcases hfound with ⟨hbest, hnone⟩ | ⟨s, hbest, hs⟩
    · exact .inl ⟨hbest, List.forall_mem_append.mpr ⟨hnone, List.forall_mem_singleton.mpr hlt⟩⟩
    · exact .inr ⟨s, hbest, hs.concat_of_lt hlt⟩
  · rw [if_neg hlt]
    have hle : least ≤ t := not_lt.mp hlt
    rcases hfound with ⟨rfl, hnone⟩ | ⟨s, rfl, hs⟩
    · exact ⟨_, rfl, .inr ⟨t, rfl, Best.concat_of_first hnone hle⟩⟩
    · simp only [Exact.lt_number, Exact.eq_number, Bool.or_eq_true, Bool.and_eq_true, decide_eq_true_eq]
      split
      · next hbetter =>
        refine ⟨_, rfl, .inr ⟨t, rfl, hs.concat_of_better hle ?_ ?_⟩⟩
        · exact hbetter.elim le_of_lt fun htie => htie.1.le
        · exact fun hsame => hbetter.elim (fun hless => absurd hsame hless.ne') fun htie => htie.2.le
      · next hworse =>
        obtain ⟨hcost, htie⟩ := not_or.mp hworse
        exact ⟨_, rfl, .inr ⟨s, rfl, hs.concat_of_no_better (not_lt.mp hcost)
          fun hsame => not_lt.mp fun hst => htie ⟨hsame, hst⟩⟩⟩

/-- The search goes through all steps. -/
theorem foldlM_betterStep (range : ℚ) (maxTicks : ℤ) {rest : List ℚ} (hpos : ∀ s ∈ rest, 0 < s)
    {best : Option Exact × Exact} (hfound : Found (costOn range maxTicks) least steps best) :
    ∃ last, (rest.map number).foldlM (betterStep (number range) maxTicks (number least)) best = .ok last ∧
      Found (costOn range maxTicks) least (steps ++ rest) last := by
  induction rest generalizing steps best with
  | nil => exact ⟨best, rfl, by rwa [List.append_nil]⟩
  | cons t rest ih =>
    obtain ⟨ht, hrest⟩ := List.forall_mem_cons.mp hpos
    obtain ⟨next, hnext, hfound⟩ := betterStep_found range maxTicks hfound ht
    obtain ⟨last, hlast, hfound⟩ := ih hrest hfound
    refine ⟨last, ?_, by rwa [List.append_assoc] at hfound⟩
    rw [List.map_cons, List.foldlM_cons, bind_of_ok hnext, hlast]

/-- The step that is picked: the best of the round ones, or the least one when no round one is large enough. -/
theorem pickStep_cases (range : ℚ) (maxTicks : ℤ) (least : ℚ) :
    (∃ s, Best roundRatios (costOn range maxTicks) least s ∧
      pickStep (number range) maxTicks (number least) = .ok (number (max s least))) ∨
    (∀ s ∈ roundRatios, s < least) ∧
      pickStep (number range) maxTicks (number least) = .ok (number least) := by
  have hstart : Found (costOn range maxTicks) least [] (none, largestStep) := .inl ⟨rfl, nofun⟩
  obtain ⟨last, hlast, hfound⟩ := foldlM_betterStep range maxTicks roundRatios_pos hstart
  have hpick : pickStep (number range) maxTicks (number least) = .ok (larger last.2 (number least)) := by
    rw [pickStep, roundSteps_eq, bind_of_ok hlast]
    rfl
  rw [List.nil_append] at hfound
  rcases hfound with ⟨rfl, hnone⟩ | ⟨s, rfl, hs⟩
  · have hten : (10 : ℚ) < least := hnone 10 (by simp [roundRatios])
    refine .inr ⟨hnone, ?_⟩
    rw [hpick, largestStep, Exact.whole_eq, Exact.larger_number, max_eq_right (by exact_mod_cast hten.le)]
  · refine .inl ⟨s, hs, ?_⟩
    rw [hpick, Exact.larger_number]

theorem pickStep_number (range : ℚ) (maxTicks : ℤ) (minStep : ℚ) :
    ∃ step : ℚ, pickStep (number range) maxTicks (number minStep) = .ok (number step) ∧
      0 < step ∧ minStep ≤ step := by
  rcases pickStep_cases range maxTicks minStep with ⟨s, hs, hpick⟩ | ⟨hnone, hpick⟩
  · exact ⟨_, hpick, lt_max_of_lt_left (roundRatios_pos s hs.mem), le_max_right _ _⟩
  · have hten : (10 : ℚ) < minStep := hnone 10 (by simp [roundRatios])
    exact ⟨_, hpick, by linarith, le_rfl⟩

/-! ## Alignment -/

theorem number_mul_hsPerThs (q : ℚ) : number q * (hsPerThs : Exact) = number (q * 1000000000000) := by
  rw [hsPerThs, Exact.whole_eq]
  rfl

theorem aligned_number (a b : ℚ) {step : ℚ} (h : 0 < step) :
    aligned (number a, number b) (number step) =
      .ok (number (max 0 (⌊a / step⌋ * step)), number (⌈b / step⌉ * step)) := by
  simp only [aligned, Exact.number_div _ h.ne', Exact.floor_number, Exact.ceil_number, bind, Except.bind,
    Exact.ofInt?_eq, Exact.number_mul, Exact.zero_eq, Exact.larger_number]
  rfl

/-- **The step is the best of the round ones**, whatever the range and the wanted number of ticks: one that is
not below the least step and comes nearest to that number, the largest of those that come equally near.
When no round step is large enough, it is the least step itself. It is positive, and so there are multiples
of it around every range. -/
theorem pickStep_best (range : ℚ) (maxTicks : ℤ) (minStep : ℚ) :
    ∃ step : ℚ, pickStep (number range) maxTicks (number minStep) = .ok (number step) ∧
      ((∃ s ∈ roundRatios, minStep ≤ s) →
        ∃ s, Best roundRatios (costOn range maxTicks) minStep s ∧ step = max s minStep) ∧
      ((∀ s ∈ roundRatios, s < minStep) → step = minStep) ∧
      0 < step ∧
      ∀ a b : ℚ, ∃ first last : ℚ,
        aligned (number a, number b) (number step * hsPerThs) = .ok (number first, number last) := by
  obtain ⟨step, hstep, hpos, -⟩ := pickStep_number range maxTicks minStep
  refine ⟨step, hstep, fun hsome => ?_, fun hnone => ?_, hpos, fun a b => ?_⟩
  · rcases pickStep_cases range maxTicks minStep with ⟨s, hs, hpick⟩ | ⟨hnone, -⟩
    · cases hstep.symm.trans hpick
      exact ⟨s, hs, rfl⟩
    · obtain ⟨s, hmem, hle⟩ := hsome
      exact absurd (hnone s hmem) (not_lt.mpr hle)
  · rcases pickStep_cases range maxTicks minStep with ⟨s, hs, -⟩ | ⟨-, hpick⟩
    · exact absurd (hnone s hs.mem) (not_lt.mpr hs.least_le)
    · cases hstep.symm.trans hpick
      rfl
  · rw [number_mul_hsPerThs, aligned_number a b (mul_pos hpos (by norm_num))]
    exact ⟨_, _, rfl⟩

end Axis

end HashrateChart
