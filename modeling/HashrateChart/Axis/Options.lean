/-
The bounds of the axes as options of a renderer: under `scales`, one object per
axis with `min`, `max` and its `ticks`. An axis without bounds loses its range,
so that the renderer fits it; everything else in the options stays.
-/
import HashrateChart.Axis.Bounds

namespace HashrateChart

namespace Axis

/-- The fields of an object; nothing else has fields to write. -/
def fieldsOf : Json → Result (List (String × Json))
  | .object fields => .ok fields
  | _ => .error .wrongType

/-- The tick options with the hints of an axis that has them. -/
def writeTicks (axis : AxisBounds Binary64) (ticks : Json) : Result Json := do
  let step := axis.step.filter Binary64.isFinite
  if step.isNone && axis.maxTicks.isNone then return ticks
  let fields ← fieldsOf ticks
  let fields :=
    match step with
    | some s => Fields.insert "stepSize" (.real s) fields
    | none => fields
  return .object <|
    match axis.maxTicks with
    | some n => Fields.insert "maxTicksLimit" (.int n) fields
    | none => fields

/-- The options of one axis. -/
def writeAxis (axis : Option (AxisBounds Binary64)) (scale : Json) : Result Json :=
  match axis, scale with
  | none, .object fields => .ok (.object (Fields.erase "max" (Fields.erase "min" fields)))
  | none, .list _ => .error .wrongType
  | none, _ => .error .noSuchOperation
  | some axis, scale => do
    let fields ← fieldsOf scale
    let fields := Fields.insert "max" (.real axis.max) (Fields.insert "min" (.real axis.min) fields)
    let ticks ← writeTicks axis ((Fields.lookup "ticks" fields).getD (.object []))
    return .object (Fields.insert "ticks" ticks fields)

/-- The scales with the options of both axes. -/
def writeScales (bounds : ChartBounds Binary64) (scales : Json) : Result Json := do
  match scales with
  | .object fields =>
    let y ← writeAxis bounds.hashrate ((Fields.lookup "y" fields).getD (.object []))
    let fields := Fields.insert "y" y fields
    let temp ← writeAxis bounds.temperature ((Fields.lookup "y_temp" fields).getD (.object []))
    return .object (Fields.insert "y_temp" temp fields)
  | _ => throw .noSuchOperation

/-- The options with the bounds of both axes; missing options stay missing. -/
def writeOptions (bounds : ChartBounds Binary64) (options : Json) : Result Json := do
  match options with
  | .null => return .null
  | .object fields =>
    let scales ← writeScales bounds ((Fields.lookup "scales" fields).getD (.object []))
    return .object (Fields.insert "scales" scales fields)
  | _ => throw .noSuchOperation

end Axis

end HashrateChart
