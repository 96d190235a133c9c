/-
The distance between ticks of the hashrate axis: one of a few round steps,
chosen so that the axis gets about as many ticks as it should.
-/
import HashrateChart.Arithmetic

namespace HashrateChart

open Arithmetic

variable {α : Type} [Arithmetic α]

namespace Axis

/-- The round steps, in TH/s, from the smallest. -/
def roundSteps : List α :=
  [ratio 5 1000, ratio 1 100, ratio 2 100, ratio 5 100, ratio 1 10, ratio 2 10, ratio 25 100,
   ratio 5 10, whole 1, whole 2, whole 5, whole 10]

/-- The step that stands until a better one is found. -/
def largestStep : α := whole 10

/-- How many ticks a step puts on a range. -/
def tickCount (range step : α) : Result Int := do return (← floor (range / step)) + 1

/-- How far a tick count is from the wanted one; more ticks than wanted cost a quarter more. -/
def score (ticks maxTicks : Int) : Result α := do
  let distance ← ofInt? (ticks - maxTicks).natAbs
  return distance + (if maxTicks < ticks then ratio 25 100 else zero)

/-- The better of the best step so far and the next one; a tie goes to the larger step. -/
def betterStep (range : α) (maxTicks : Int) (minStep : α) (best : Option α × α) (step : α) :
    Result (Option α × α) := do
  if lt step minStep then return best
  let s ← score (← tickCount range step) maxTicks
  match best.1 with
  | none => return (some s, step)
  | some b => return if lt s b || (eq s b && lt best.2 step) then (some s, step) else best

/-- The round step that comes nearest to a number of ticks, at least `minStep`. -/
def pickStep (range : α) (maxTicks : Int) (minStep : α) : Result α := do
  let best ← roundSteps.foldlM (betterStep range maxTicks minStep) (none, largestStep)
  return larger best.2 minStep

end Axis

end HashrateChart
