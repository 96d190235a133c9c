/-
A series as one line of block characters. A long series is drawn by values at
evenly spread positions; gaps are blanks, and a flat series is a line.
-/
import HashrateChart.Number

namespace HashrateChart

open Arithmetic

namespace Sparkline

/-- What stands for a series that cannot be drawn. -/
def noData : String := "[dim]No data[/dim]"

def blocks : List Char := ['▁', '▂', '▃', '▄', '▅', '▆', '▇', '█']

def flat : Char := '─'

/-- The positions that are drawn of a number of values: all, or as many as the width says, which
then has to be an integer. -/
def positions (count : Nat) (width : Number) : Result (List Nat) := do
  if (Number.int count).le width || width.isUndefined then return List.range count
  let step ← (Number.int count).div width
  match width with
  | .real _ => throw .wrongType
  | .int width =>
    (List.range width.toNat).mapM fun (i : Nat) => do
      let x : Binary64 ← ofInt? i
      return (← (x * step).truncate).toNat

/-- The value at a position. -/
def valueAt (values : List (Raw Number)) (i : Nat) : Raw Number :=
  values.getD i (.error .noSuchSlot)

/-- A value and whether it is finite. -/
def judged (v : Raw Number) : Result (Number × Bool) := do
  let v ← v
  return (v, ← v.isFinite)

/-- The least and the greatest number. -/
def extremes? : List Number → Option (Number × Number)
  | [] => none
  | v :: rest => some (rest.foldl Number.min v, rest.foldl Number.max v)

/-- The height of a value above the lowest one, in eighths of the span. -/
def height (lo span v : Number) : Result Nat := do
  let share ← (← v.sub lo).div span
  return min (← (share * 8).truncate).toNat 7

/-- The character of a value. -/
def mark (lo span : Number) (v : Number × Bool) : Result Char := do
  if !v.2 then return ' '
  if span.isZero then return flat
  return blocks.getD (← height lo span v.1) flat

/-- The line of a series. Only the values that are drawn are read. -/
def draw (values : List (Raw Number)) (width : Raw Number) : Result String := do
  if values.length < 2 then return noData
  let sampled ← ((← positions values.length (← width)).map (valueAt values)).mapM judged
  match extremes? ((sampled.filter (·.2)).map (·.1)) with
  | none => return noData
  | some (lo, hi) =>
    let span ← hi.sub lo
    return String.ofList (← sampled.mapM (mark lo span))

/-- The line of a series of real numbers. -/
def ofReals (values : List Binary64) (width : Raw Number) : Result String :=
  draw (values.map fun x => .ok (.real x)) width

end Sparkline

end HashrateChart
