/-
A picture of the chart at one moment: copies of the curves, the smoothed 1m
curve, and the axes for the visible window.

Drawing a picture changes nothing in the chart but the temperature axis that it
remembers.
-/
import HashrateChart.Axis.Options
import HashrateChart.Axis.Scales
import HashrateChart.Chart.State

namespace HashrateChart

structure Frame where
  labels : List Int
  series : PerChannel (List Binary64)
  /-- The 1m curve as it is drawn. -/
  curve : SmoothedSeries Binary64
  visibility : List Bool
  xMin : Number
  xMax : Number
  window : Int
  bounds : ChartBounds Binary64
  options : Json
  live : Option Binary64
  /-- The length of the window as text, when the chart is zoomed out. -/
  zoomLabel : Option String

namespace Chart

/-- Which curves are shown unless something else is asked for. -/
def defaultVisibility (p : Chart) : List Bool := p.config.ui.legendHidden.map (!·)

/-- On what the axes of the chart depend besides the samples. -/
def scaleSettings (p : Chart) : Result (Axis.ScaleSettings Binary64) := do
  let axis := p.config.axis
  let temp := p.config.tempScale
  return {
    pad := p.config.padding
    maxTicks := .int (← Axis.clampTicks axis.tickClamp (.int axis.maxTicks))
    minStep := .ok axis.minStep
    live := .ok (p.live.map .number)
    softShare := Axis.nonNegative (.real axis.softInclude)
    padBelow := .ok temp.padBelow
    padAbove := .ok temp.padAbove
    hysteresis := Axis.nonNegative (.real temp.hysteresis) }

/-- The options that a picture starts from: the range of time. -/
def timeOptions (xMin xMax : Number) : Json :=
  .object [("scales", .object [("x", .object [("min", .number xMin), ("max", .number xMax)])])]

/-- The length of a window as text, when the chart is zoomed out. -/
def zoomLabel (window : Int) (cfg : ZoomConfig) : Result (Option String) := do
  if ← Zoom.showsLabel (.int window) cfg then return some (← Zoom.label (.int window) "h" "m")
  else return none

/-- The picture of the chart now, for a window and a choice of curves. -/
def frame (now : Int) (window : Json) (visibility : Option (List Bool)) : Action Chart Frame := do
  let p ← get
  let zoom := p.config.zoom
  let window ← liftM (m := Except Fault) <|
    Zoom.clamp (if window.isNull then .int zoom.minWindow else window) zoom
  let visibility := visibility.getD p.defaultVisibility
  let (xMin, xMax) ← liftM (m := Except Fault) <|
    Axis.xWindow (p.series.lastLabel?.map Arithmetic.ofInt?) (.int window) (.ok (.int now))
  let labels : List (Arithmetic.Raw Binary64) := p.series.labels.map Arithmetic.ofInt?
  let scales ← liftM (m := Except Fault) do
    Axis.chartScales labels (.ok (.ofNumber xMin)) (.ok (.ofNumber xMax))
      (p.series.data.map fun values => .ok (some (values.map .ok))) visibility (← p.scaleSettings)
      (p.tempMemory.map fun (lo, hi) => (.ok lo, .ok hi))
  modify fun p => { p with tempMemory := scales.memory.or p.tempMemory }
  let options ← liftM (m := Except Fault) <|
    Axis.writeOptions scales.bounds (timeOptions xMin xMax)
  let curve ← liftM (m := Except Fault) <|
    Smoothing.smooth (p.series.data.hashrate1m.map .ok) labels p.config.smoothing (.int window)
      zoom
  return {
    labels := p.series.labels
    series := p.series.data
    curve := curve
    visibility := visibility
    xMin := xMin
    xMax := xMax
    window := window
    bounds := scales.bounds
    options := options
    live := p.live
    zoomLabel := ← liftM (m := Except Fault) (zoomLabel window zoom) }

end Chart

end HashrateChart
