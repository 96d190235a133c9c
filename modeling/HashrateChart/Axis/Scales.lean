/-
Both axes of one picture of the chart.

The hashrate axis follows one base curve and is only softly widened for the
other visible ones; the temperature axis remembers where it was.
-/
import HashrateChart.Axis.Bounds

namespace HashrateChart

open Arithmetic

variable {α β : Type} [Arithmetic α]

/-- The axes of a picture and the temperature range to remember for the next one. -/
structure ChartScales (α : Type) where
  bounds : ChartBounds α
  memory : Option (α × α)
  deriving DecidableEq

namespace Axis

/-- Whether a channel is shown; one that the list does not reach is not. -/
def isVisible (visibility : List Bool) (c : Channel) : Bool := visibility.getD c.index false

/-- The curve that the hashrate axis follows: the first visible one, or else the 1m curve. -/
def baseChannel (visibility : List Bool) : Channel :=
  (Channel.hashrates.find? (isVisible visibility)).getD .hashrate1m

/-- What there is of the visible hashrate channels other than the base. -/
def otherSeries (series : PerChannel β) (visibility : List Bool) (base : Channel) : List β :=
  (Channel.hashrates.filter fun c => c ≠ base && isVisible visibility c).map series.get

/-- What the axes depend on besides the samples. -/
structure ScaleSettings (α : Type) where
  pad : Padding α
  maxTicks : Json
  minStep : Raw α
  live : Raw (Option (Edge α))
  softShare : Raw α
  padBelow : Raw α
  padAbove : Raw α
  hysteresis : Raw α

/-- The axes for the samples from `xMin` to `xMax`, with the remembered temperature range. The
series of a channel is only looked for when it is needed. -/
def chartScales (labels : List (Raw α)) (xMin xMax : Raw (Edge α))
    (series : PerChannel (Raw (SeriesLike α))) (visibility : List Bool) (s : ScaleSettings α)
    (previous : Option (Raw α × Raw α)) : Result (ChartScales α) := do
  let base := baseChannel visibility
  let baseSeries ← series.get base
  let first ← chartBounds labels [baseSeries] [] xMin xMax s.pad s.maxTicks s.minStep
    (.ok (whole 1)) (.ok (whole 2)) s.live
  let hashrate ←
    if first.hashrate.isSome && !labels.isEmpty then
      softInclude labels xMin xMax s.pad s.maxTicks s.minStep baseSeries
        (← readAll (otherSeries series visibility base)) s.live s.softShare first.hashrate
    else pure first.hashrate
  let temperature ← sensorBounds labels (← series.vregTemp) (← series.asicTemp) xMin xMax
    s.maxTicks s.padBelow s.padAbove
  match temperature with
  | none => return ⟨⟨hashrate, none⟩, none⟩
  | some t =>
    let (lo, hi) ← sticky t.min t.max previous s.hysteresis
    return ⟨⟨hashrate, some { t with min := lo, max := hi }⟩, some (lo, hi)⟩

end Axis

end HashrateChart
