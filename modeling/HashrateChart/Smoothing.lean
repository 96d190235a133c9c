/-
The curve of the 1m hashrate as it is drawn: an exponential moving average
whose length grows as the chart zooms out, and the tension of the line.

The average starts anew after every gap, and the last point can stay as it was
measured.
-/
import HashrateChart.Zoom

namespace HashrateChart

open Arithmetic

variable {α : Type} [Arithmetic α]

/-- A curve and how it is drawn. -/
structure SmoothedSeries (α : Type) where
  data : List α
  tension : α
  mode : Option String
  deriving DecidableEq

namespace Smoothing

/-- The differences of neighbours. -/
def gaps : List α → List α
  | a :: b :: rest => (b - a) :: gaps (b :: rest)
  | _ => []

/-- The middle value, or the mean of the two middle ones. -/
def median (values : List α) : α :=
  let sorted := values.mergeSort le
  let half := sorted.length / 2
  if sorted.length % 2 = 1 then sorted.getD half zero
  else (sorted.getD (half - 1) zero + sorted.getD half zero) / whole 2

/-- The last `n` items. -/
def lastItems {β : Type} (n : Nat) (xs : List β) : List β := xs.drop (xs.length - n)

/-- The median of the times between labels that are positive, zero when there are none. -/
def medianGap (labels : List α) : α :=
  let steps := (gaps labels).filter fun d => isFinite d && lt zero d
  if steps.isEmpty then zero else median steps

/-- The median time between samples over the last `points` of them, zero when it is unknown. No
other labels are read. -/
def medianInterval (labels : List (Raw α)) (points : Raw Int) : Result α := do
  if labels.length < 3 then return zero
  let n := (max 1 (min (← points) (labels.length - 1))).toNat
  return medianGap (← readAll (lastItems (n + 1) labels))

/-- The weights of a new value and of the average so far. -/
structure Weights (α : Type) where
  new : Raw α
  old : Raw α

/-- The weights that add up to one. -/
def Weights.ofShare (share : α) : Weights α := ⟨.ok share, .ok (whole 1 - share)⟩

/-- The weights for a share that may be an integer; what is left of it is then exact. -/
def Weights.ofNumber : Number → Weights Binary64
  | .real x => ofShare x
  | .int i => ⟨ofInt? i, ofInt? (1 - i)⟩

/-- The moving average, continued from a previous value. -/
def emaFrom (w : Weights α) : α → List (Raw α) → Result (List α)
  | _, [] => .ok []
  | previous, v :: rest => do
    let v ← v
    let next ←
      if !isFinite v then pure gap
      else if isGap previous then pure v
      else
        let new ← w.new
        let old ← w.old
        pure (new * v + old * previous)
    return next :: (← emaFrom w next rest)

/-- The moving average; a gap starts it anew. -/
def ema (w : Weights α) (values : List (Raw α)) : Result (List α) := emaFrom w gap values

/-- The tension of a line through samples at an interval. -/
def baseTension (cfg : SmoothingConfig α) (interval : α) : α :=
  if !eq interval zero && leInt interval cfg.fastInterval then cfg.tensionFast
  else if !eq interval zero && leInt interval cfg.mediumInterval then cfg.tensionMedium
  else cfg.tensionSlow

/-- The tension added per zoom step, to three places and never negative. -/
def boostPerStep (cfg : SmoothingConfig α) : Result α := do
  let thousandths ← nearest (cfg.zoomBoost * whole 1000)
  return larger zero (← quotient thousandths 1000)

/-- The tension after a number of zoom steps, at most the fastest one. -/
def tension (cfg : SmoothingConfig α) (interval : α) (steps : Int) : Result α := do
  let boost ← boostPerStep cfg
  let base := baseTension cfg interval
  if lt zero boost then return smaller cfg.tensionFast (base + (← ofInt? steps) * boost)
  else return base

/-- The length of the average in milliseconds. -/
def targetWindow (cfg : SmoothingConfig α) (steps : Int) : Int :=
  min (max (cfg.windowMin + steps * cfg.windowPerStep) cfg.windowMin) cfg.windowMax

/-- The length of the average in samples, zero where no average is taken. -/
def points (cfg : SmoothingConfig α) (interval : α) (steps : Int) : Result Int := do
  let target := targetWindow cfg steps
  if lt zero interval && decide (0 < target) then
    let wanted ← nearest ((← ofInt? target) / interval)
    if wanted < 2 then return 0
    let least := max 2 cfg.minPoints
    return min (max wanted least) (max least cfg.maxPoints)
  else return 0

/-- The averaged values with the last one as it was measured. -/
def snapLast (raw averaged : List α) : List α :=
  match raw.getLast? with
  | some v => if isFinite v then averaged.dropLast ++ [v] else averaged
  | none => averaged

/-- The curve to draw for a window. -/
def smooth (data labels : List (Raw α)) (cfg : SmoothingConfig α) (window : Json)
    (zoom : ZoomConfig) : Result (SmoothedSeries α) := do
  let data ← readAll data
  if !cfg.enabled then return ⟨data, zero, none⟩
  let interval ← medianInterval labels (.ok cfg.medianPoints)
  let steps ← Zoom.stepCount α window zoom
  let tension ← tension cfg interval steps
  let n ← points cfg interval steps
  if n = 0 then return ⟨data, tension, some cfg.mode⟩
  let averaged ← ema (.ofShare (whole 2 / (← ofInt? (n + 1)))) (data.map .ok)
  return ⟨if cfg.snapLast then snapLast data averaged else averaged, tension, some cfg.mode⟩

end Smoothing

end HashrateChart
