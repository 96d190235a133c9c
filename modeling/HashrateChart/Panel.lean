/-
The status panel: what the chart knows at one moment, as labelled rows of text.

Times are given as hours, minutes and seconds of the day, in UTC.
-/
import HashrateChart.Chart.Frame
import HashrateChart.Sparkline

namespace HashrateChart

/-- A panel with a coloured border and rows of a label and a text each. -/
structure Panel where
  border : String
  rows : List (String × String)
  deriving DecidableEq

namespace Panel

def unknown : String := "[dim]--[/dim]"

/-- A text in a colour. -/
def inColor (color text : String) : String := "[" ++ color ++ "]" ++ text ++ "[/" ++ color ++ "]"

def stageColor : Warmup.Stage → String
  | .locked => "red"
  | .ready => "green"
  | _ => "yellow"

/-- A hashrate in TH/s, to three places. -/
def terahash (x : Binary64) : String := Decimal.fixed 3 (x / Axis.hsPerThs)

def degrees (x : Binary64) : String := Decimal.fixed 1 x

def hashrateText (x : Option Binary64) : String :=
  match x.filter Binary64.isFinite with
  | some x => terahash x ++ " TH/s"
  | none => unknown

def tempText (x : Option Binary64) : String :=
  match x.filter Binary64.isFinite with
  | some x => degrees x ++ "°C"
  | none => unknown

/-- The first and the last second, counted from the epoch, whose time of day is known: the second
day of the year 1 starts with the one, and the year 9999 ends with the other. -/
def calendar : Int × Int := (-62135510400, 253402300799)

/-- The first and the last second whose years, less 1900, are numbers of 32 bits. -/
def countedYears : Int × Int := (-67768040609740800, 67768036191676799)

/-- The time of day at a number of milliseconds since the epoch. -/
def timeOfDay (t : Int) : Result String := do
  let seconds ← (← (Arithmetic.quotient t 1000 : Result Binary64)).floor
  if seconds < -Check.wordLimit ∨ Check.wordLimit ≤ seconds then throw .overflow
  if seconds < countedYears.1 ∨ countedYears.2 < seconds then throw .yearOutOfRange
  if seconds < calendar.1 ∨ calendar.2 < seconds then throw .timeOutOfRange
  let second := (seconds.emod 86400).toNat
  let two (n : Nat) : String := Decimal.digitText (Decimal.padLeft 2 (Decimal.digits n))
  return two (second / 3600) ++ ":" ++ two (second / 60 % 60) ++ ":" ++ two (second % 60)

/-- Since when and until when 1m values were stored. -/
def flowRows (t : Warmup.Timers) : Result (List (String × String)) :=
  match t.flowFirst, t.flowLast with
  | some first, some last => do
    return [("1m flow:", (← timeOfDay first) ++ " .. " ++ (← timeOfDay last))]
  | _, _ => .ok []

def hashrateAxis (b : AxisBounds Binary64) : String × String :=
  ("Y axis:", terahash b.min ++ " .. " ++ terahash b.max ++ " TH/s")

def tempAxis (b : AxisBounds Binary64) : String × String :=
  ("Temp axis:", degrees b.min ++ " .. " ++ degrees b.max ++ "°C")

/-- The expected hashrate, when it is known. -/
def expectedText (p : Chart) : String :=
  hashrateText (if p.expected.eq 0 then none else some p.expected)

def tempRow (f : Frame) (label : String) (c : Channel) : String × String :=
  (label, tempText (Series.lastFinite? (f.series.get c)))

/-- The panel of a chart and a picture of it, with a line of at most `width` characters. -/
def make (p : Chart) (f : Frame) (width : Arithmetic.Raw Number) : Result Panel := do
  let stage := p.warmup.stage
  let trend ← Sparkline.ofReals f.curve.data width
  let flow ← flowRows p.warmup.timers
  return {
    border := if stage = .ready then "green" else "yellow"
    rows :=
      [("Warmup:", inColor (stageColor stage) stage.name), ("Live:", hashrateText f.live),
        ("Expected:", expectedText p),
        ("Hashrate 1m:", inColor "cyan" (hashrateText (Series.lastFinite? f.series.hashrate1m))),
        ("Trend:", inColor "cyan" trend)] ++ flow ++
      [tempRow f "VR Temp:" .vregTemp, tempRow f "ASIC Temp:" .asicTemp] ++
      (f.bounds.hashrate.map hashrateAxis).toList ++ (f.bounds.temperature.map tempAxis).toList ++
      [("Samples:", Decimal.groupedText f.labels.length)] ++
      (f.zoomLabel.filter (· ≠ "")).toList.map fun label => ("Window:", label) }

/-- How wide the line of a panel is unless something else is asked for. -/
def defaultWidth : Int := 40

end Panel

end HashrateChart
