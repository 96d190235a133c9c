/-
The samples of a batch of history, in units of the chart and in order of time.

Devices give times in seconds or in milliseconds; a time between zero and
`10^12` counts as seconds. A sample whose time is no finite number is left out.
-/
import HashrateChart.Device.Batch

namespace HashrateChart

namespace History

/-- One sample of all channels, hashrates in H/s and temperatures in °C. -/
structure Sample where
  time : Int
  values : PerChannel Binary64
  deriving DecidableEq

/-- Times below this are in seconds. -/
def secondsLimit : Number := .int 1000000000000

/-- A time in milliseconds. -/
def normalizeTime (t : Number) : Number :=
  if t.isPositive && t.lt secondsLimit then
    match t with
    | .int i => .int (i * 1000)
    | .real x => .real (x * 1000)
  else t

/-- A time that is a real number in milliseconds. -/
def normalizeReal (t : Binary64) : Binary64 :=
  if (0 : Binary64).lt t && t.lt 1000000000000 then t * 1000 else t

/-- Hundredths of GH/s as H/s. -/
def hashrateScale : Binary64 := 1000000000 / 100

/-- Hundredths of a degree as degrees. -/
def tempScale : Binary64 := 1 / 100

def scale (c : Channel) : Binary64 := if c.isHashrate then hashrateScale else tempScale

/-- The sample at a position, when its time is finite. -/
def row? (b : HistoryBatch) (base : Binary64) (i : Nat) : Option Sample := do
  let t := normalizeReal ((← b.times[i]?) + base)
  match t.truncate with
  | .ok time => some ⟨time, .ofFn fun c => (b.values.get c).getD i .nan * scale c⟩
  | .error _ => none

/-- The samples of a batch, those of the same time in the order of the batch. -/
def decode (batch : Option HistoryBatch) : Result (List Sample) :=
  match batch with
  | none => .ok []
  | some b =>
    if b.rowCount = 0 then .ok []
    else do
      let base : Binary64 ← Arithmetic.ofInt? b.base
      return ((List.range b.rowCount).filterMap (row? b base)).mergeSort
        fun x y => decide (x.time ≤ y.time)

/-- The oldest time of a batch. -/
def oldest (batch : Option HistoryBatch) : Result (Option Binary64) :=
  match batch with
  | none => .ok none
  | some b =>
    if b.times.isEmpty then .ok none
    else do
      let base : Binary64 ← Arithmetic.ofInt? b.base
      let times := ((b.times.map (· + base)).filter Binary64.isFinite).map normalizeReal
      match times with
      | [] => return none
      | t :: rest => return some (rest.foldl Arithmetic.smaller t)

end History

end HashrateChart
