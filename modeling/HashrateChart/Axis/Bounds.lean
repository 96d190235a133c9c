/-
The bounds of the two axes of the chart.

The hashrate axis leaves out the outermost values, adds room, keeps the live
hashrate in view and is aligned to its step. The temperature axis is padded by
fixed amounts and follows contracting data slowly. Settings that an axis without
data does not need are not read.
-/
import HashrateChart.Axis.Step
import HashrateChart.Axis.Window

namespace HashrateChart

open Arithmetic

variable {α β : Type} [Arithmetic α]

/-- The range of an axis and how its ticks are placed. -/
structure AxisBounds (α : Type) where
  min : α
  max : α
  step : Option α
  maxTicks : Option Int
  deriving DecidableEq

/-- The bounds that a document holds. -/
def AxisBounds.check : Json → Checked (AxisBounds Binary64) :=
  Check.object fun o => AxisBounds.mk
    <$> Check.required o "min" Check.real
    <*> Check.required o "max" Check.real
    <*> Check.field o "stepSize" none (Check.optional Check.real)
    <*> Check.field o "maxTicksLimit" none (Check.optional Check.integer)

/-- The bounds of both axes; an axis without data has none. -/
structure ChartBounds (α : Type) where
  hashrate : Option (AxisBounds α)
  temperature : Option (AxisBounds α)
  deriving DecidableEq

namespace Axis

def hsPerThs : α := whole 1000000000000

def defaultTicks : Int := 7

/-- A wanted number of ticks, at least two; what is no number or zero stands for seven. -/
def normalizeTicks (ticks : Json) : Result Int := do
  let wanted ←
    match ticks.toReal with
    | .error .badNumeral | .error .wrongType => pure (7 : Binary64)
    | .error e => throw e
    | .ok x => pure (if x.eq 0 then 7 else x)
  return Max.max 2 (← wanted.nearest)

/-- A wanted number of ticks brought into the range of the configuration. -/
def clampTicks (clamp : TickClamp) (ticks : Number) : Result Int := do
  return Max.max clamp.min (Min.min clamp.max (← ticks.nearest))

/-! ## Hashrate -/

/-- The room on one side of the hashrate axis. -/
def room (pad : Padding α) (share : Option α) (lo hi : α) : α :=
  let range := larger (whole 1000000) (hi - lo)
  let largest := larger (whole 1) (abs hi)
  let wanted := larger (larger (larger (range * share.getD pad.share) (pad.least * hsPerThs))
    (largest * pad.flatShare)) zero
  smaller wanted (largest * pad.mostShare)

/-- The range with room on both sides, widened so that a live hashrate is in it. -/
def padded (pad : Padding α) (live : Option (Edge α)) (lo hi : α) : Result (α × α) := do
  let above := room pad pad.shareTop lo hi
  let below := room pad pad.shareBottom lo hi
  let least := larger zero (lo - below)
  let most := hi + above
  match live with
  | none => return (least, most)
  | some e =>
    let x ← e.toNumber
    if isFinite x && e.exceeds zero then
      return (if e.isExceededBy least then larger zero (x - below) else least,
        if e.exceeds most then x + above else most)
    else return (least, most)

/-- A range aligned to a step: down at its start, never below zero, and up at its end. -/
def aligned (range : α × α) (step : α) : Result (α × α) := do
  let first ← ofInt? (← floor (range.1 / step))
  let last ← ofInt? (← ceil (range.2 / step))
  return (larger zero (first * step), last * step)

/-- The hashrate axis for the values of a window. -/
def hashrateBounds (values : List α) (pad : Padding α) (maxTicks : Int) (minStep : Raw α)
    (live : Raw (Option (Edge α))) : Result (Option (AxisBounds α)) := do
  match ← robustExtremes? values with
  | none => return none
  | some (lo, hi) =>
    let range ← padded pad (← live) lo hi
    let span := larger zero (range.2 - range.1) / hsPerThs
    let step := (← pickStep span maxTicks (← minStep)) * hsPerThs
    let (first, last) ← aligned range step
    return some ⟨first, last, some step, some maxTicks⟩

/-! ## Temperature -/

/-- The temperature axis for the values of a window. -/
def temperatureBounds (values : List α) (maxTicks : Int) (padBelow padAbove : Raw α) :
    Result (Option (AxisBounds α)) := do
  match extremes? values with
  | none => return none
  | some (lo, hi) =>
    return some ⟨larger zero (lo - (← padBelow)), hi + (← padAbove), none, some maxTicks⟩

/-! ## Both -/

/-- The bounds of both axes for the samples from `xMin` to `xMax`. -/
def chartBounds (labels : List (Raw α)) (hashrates temperatures : List (SeriesLike α))
    (xMin xMax : Raw (Edge α)) (pad : Padding α) (maxTicks : Json)
    (minStep padBelow padAbove : Raw α) (live : Raw (Option (Edge α))) :
    Result (ChartBounds α) := do
  let range ← windowIndices labels xMin xMax
  let ticks ← normalizeTicks maxTicks
  let rates ← windowed hashrates range
  let degrees ← windowed temperatures range
  let hashrate ← hashrateBounds rates pad ticks minStep live
  return ⟨hashrate, ← temperatureBounds degrees ticks padBelow padAbove⟩

/-- The temperature axis for two sensors. -/
def sensorBounds (labels : List (Raw α)) (vreg asic : SeriesLike α) (xMin xMax : Raw (Edge α))
    (maxTicks : Json) (padBelow padAbove : Raw α) : Result (Option (AxisBounds α)) := do
  let degrees ← windowed [vreg, asic] (← windowIndices labels xMin xMax)
  temperatureBounds degrees (← normalizeTicks maxTicks) padBelow padAbove

/-- A setting that must not be negative; what counts as false stands for zero. -/
def nonNegative (j : Json) : Result Binary64 :=
  if j.truthy then do return larger 0 (← j.toReal) else .ok 0

/-- Bounds widened for other series, on each side by at most a share of their range. -/
def widened (bounds : AxisBounds α) (share : α) (others : List α) : AxisBounds α :=
  match extremes? others with
  | none => bounds
  | some (lo, hi) =>
    let most := larger (whole 1) (bounds.max - bounds.min) * share
    { bounds with
      min := larger (bounds.min - most) (smaller bounds.min lo)
      max := smaller (bounds.max + most) (larger bounds.max hi) }

/-- The hashrate axis of one series, widened for others by at most a share of its range. -/
def softInclude (labels : List (Raw α)) (xMin xMax : Raw (Edge α)) (pad : Padding α)
    (maxTicks : Json) (minStep : Raw α) (base : SeriesLike α) (others : List (SeriesLike α))
    (live : Raw (Option (Edge α))) (share : Raw α) (baseBounds : Option (AxisBounds α)) :
    Result (Option (AxisBounds α)) := do
  let bounds ←
    match baseBounds with
    | some b => pure (some b)
    | none =>
      pure (← chartBounds labels [base] [] xMin xMax pad maxTicks minStep (.ok (whole 1))
        (.ok (whole 2)) live).hashrate
  match bounds with
  | none => return none
  | some b =>
    let share ← share
    if eq share zero || others.isEmpty || labels.isEmpty then return some b
    return some (widened b share (← windowed others (← windowIndices labels xMin xMax)))

/-- Where a lower bound goes that moves out at once and in by at most `h` per call. `above` and
`below` say how the new bound stands to a number; none is the new bound itself. -/
def stickyMin (above below : α → Bool) (previous h : α) : Option α :=
  if above (previous + h) then some (previous + h)
  else if below (previous - h) then none else some previous

/-- As `stickyMin`, for an upper bound. -/
def stickyMax (above below : α → Bool) (previous h : α) : Option α :=
  if below (previous - h) then some (previous - h)
  else if above (previous + h) then none else some previous

/-- How far a range may follow a new one, for each bound: none where it follows all the way. -/
def stickyBounds (above below : β → α → Bool) (newMin newMax : β)
    (previous : Option (Raw α × Raw α)) (hysteresis : Raw α) : Result (Option α × Option α) := do
  match previous with
  | none => return (none, none)
  | some (lo, hi) =>
    let lo ← lo
    if !isFinite lo then return (none, none)
    let hi ← hi
    if !isFinite hi then return (none, none)
    let h ← hysteresis
    return (stickyMin (above newMin) (below newMin) lo h,
      stickyMax (above newMax) (below newMax) hi h)

/-- A range that expands at once and contracts by at most the hysteresis. -/
def sticky (newMin newMax : α) (previous : Option (Raw α × Raw α)) (hysteresis : Raw α) :
    Result (α × α) := do
  let (lo, hi) ← stickyBounds (fun new x => lt x new) lt newMin newMax previous hysteresis
  return (lo.getD newMin, hi.getD newMax)

/-- As `sticky`, for a range of any numbers, which are compared without rounding. -/
def stickyNumbers (newMin newMax : Number) (previous : Option (Raw Binary64 × Raw Binary64))
    (hysteresis : Raw Binary64) : Result (Number × Number) := do
  let (lo, hi) ← stickyBounds (fun new x => (Number.real x).lt new) (fun new x => new.lt (.real x))
    newMin newMax previous hysteresis
  return ((lo.map .real).getD newMin, (hi.map .real).getD newMax)

/-- Both bounds of a pair, when both are there. -/
def both? : Option β → Option β → Option (β × β)
  | some a, some b => some (a, b)
  | _, _ => none

end Axis

end HashrateChart
