/-
The visible window of the chart: its length in milliseconds, kept between the
limits of the zoom and changed in steps.

Limits and windows may be any numbers; they are first brought to whole ones,
and everything that is no number counts as zero.
-/
import HashrateChart.Config

namespace HashrateChart

namespace Zoom

/-- The whole number nearest to a value; what is no finite number counts as zero. -/
def whole (j : Json) : Result Int :=
  if !j.truthy then .ok 0
  else
    match j.toReal with
    | .error .badNumeral | .error .wrongType => .ok 0
    | .error e => .error e
    | .ok x => if x.isFinite then x.nearest else .ok 0

/-- Limits with `1 ≤ min ≤ max` and a step of at least one. -/
def normalize (cfg : ZoomConfig) : Result ZoomConfig := do
  let least := max 1 (← whole (.int cfg.minWindow))
  let step := max 1 (← whole (.int cfg.step))
  let most ← whole (.int cfg.maxWindow)
  return ⟨least, max least (if most = 0 then least else most), step⟩

/-- The window brought between the limits. -/
def clamp (window : Json) (cfg : ZoomConfig) : Result Int := do
  let c ← normalize cfg
  let w ← whole window
  return min c.maxWindow (max c.minWindow w)

/-- The window longer by `delta`, brought between the limits. -/
def step (window delta : Json) (cfg : ZoomConfig) : Result Int := do
  let w ← whole window
  let d ← whole delta
  clamp (.int (w + d)) cfg

/-- The other end of the range: the longest window from its lower half, else the shortest. -/
def toggle (window : Json) (cfg : ZoomConfig) : Result Int := do
  let c ← normalize cfg
  let middle : Binary64 ← Arithmetic.quotient (c.minWindow + c.maxWindow) 2
  let w ← whole window
  return if (Number.int w).le (.real middle) then c.maxWindow else c.minWindow

/-- How many zoom steps a window is above the shortest one. -/
def stepCount (α : Type) [Arithmetic α] (window : Json) (cfg : ZoomConfig) : Result Int := do
  let c ← normalize cfg
  let w ← clamp window c
  let steps : α ← Arithmetic.quotient (w - c.minWindow) c.step
  return max 0 (← Arithmetic.nearest steps)

/-- The length of a window in hours and minutes. -/
def label (window : Json) (hour minute : String) : Result String := do
  let w ← whole window
  let minutes : Binary64 ← Arithmetic.quotient w 60000
  let total := (← whole (.real minutes)).toNat
  let h := Decimal.natText (total / 60) ++ hour
  let m := Decimal.natText (total % 60) ++ minute
  return if total / 60 = 0 then m else if total % 60 = 0 then h else h ++ " " ++ m

/-- Whether a window is at least one step above the shortest one. -/
def showsLabel (window : Json) (cfg : ZoomConfig) : Result Bool := do
  if window.isNull then return false
  let w ← window.asNumber
  if !(← w.isFinite) then return false
  let c ← normalize cfg
  return (Number.int (c.minWindow + c.step)).le w

end Zoom

end HashrateChart
